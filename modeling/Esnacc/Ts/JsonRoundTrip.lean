import Esnacc.Ts.JsonConverter

/-!
What `fromJSON` makes of the output of `toJSON`, for values that have their type.

The statements of encoder and decoder are chosen apart from each other. Where the choices agree and
no text gets lost (`RegularPart`), a value comes back: each statement is calm, that is, it ends with
what it should and records nothing, and so a converter that is made of calm statements finds its
result valid, wherever the mark of the list has been set in between.
-/

namespace Esnacc.Ts

/-- The values of the simple types. -/
def HasSimpleType : SimpleType → JsValue → Prop
  | .boolean, .boolean _ => True
  | .integer, .number _ | .enumerated _, .number _ | .real, .number _ => True
  | .utf8String, .string _ => True
  | .octetString, .bytes _ => True
  | .null, .null => True
  | _, _ => False

/-- The name of a member in an object. -/
def NamedType.name (e : NamedType) : String := fixName e.fieldName

section Typing

variable (m : Definitions) (S : String → JsValue → Prop)

/-- The values of a definition, all whose parts have `S`. A member that has a date in it is
declared as Date; an element of a list of times is declared as the number it is. -/
inductive Typed : String → JsValue → Prop
  | simple {n : String} {type : SimpleType} {imported : Bool} {v : JsValue}
      (def_ : m.type n = .alias (.simple type) imported) (own : S n v)
      (value : HasSimpleType type v) : Typed n v
  | renamed {n r : String} {imported : Bool} {v : JsValue}
      (def_ : m.type n = .alias (.ref r) imported) (own : S n v)
      (value : Typed r v) : Typed n v
  | sequence {n : String} {es : List NamedType} {get : String → JsValue}
      (def_ : m.type n = .sequence es) (own : S n (.object get))
      (mandatory : ∀ e ∈ es, get e.name = .undefined → e.optional = true)
      (simple : ∀ e ∈ es, ∀ type, m.memberCode e.type = .simple type →
        get e.name = .undefined ∨ HasSimpleType type (get e.name))
      (time : ∀ e ∈ es, m.memberCode e.type = .systemTime →
        get e.name = .undefined ∨ ∃ t, get e.name = .date t)
      (nested : ∀ e ∈ es, ∀ r, m.memberCode e.type = .converter r →
        get e.name ≠ .undefined → Typed r (get e.name))
      (others : ∀ name, (∀ e ∈ es, e.name ≠ name) → get name = .undefined) :
      Typed n (.object get)
  | choice {n : String} {es : List NamedType} {get : String → JsValue} {e : NamedType}
      (def_ : m.type n = .choice es) (own : S n (.object get)) (chosen : e ∈ es)
      (simple : ∀ type, m.memberCode e.type = .simple type → HasSimpleType type (get e.name))
      (time : m.memberCode e.type = .systemTime → ∃ t, get e.name = .date t)
      (nested : ∀ r, m.memberCode e.type = .converter r → Typed r (get e.name))
      (others : ∀ name, e.name ≠ name → get name = .undefined) : Typed n (.object get)
  | sequenceOf {n : String} {element : Ty} {vs : List JsValue}
      (def_ : m.type n = .sequenceOf element) (own : S n (.array vs))
      (simple : ∀ type, m.elementEncoderCode element = .simple type →
        ∀ v ∈ vs, HasSimpleType type v)
      (nested : ∀ r, m.elementEncoderCode element = .converter r → ∀ v ∈ vs, Typed r v) :
      Typed n (.array vs)

/-- There is an `initEmpty` for the name in the module it is defined in. -/
inductive HasInitEmpty : String → Prop
  | sequence {n : String} {es : List NamedType} (def_ : m.type n = .sequence es) : HasInitEmpty n
  | choice {n : String} {es : List NamedType} (def_ : m.type n = .choice es) : HasInitEmpty n
  | inherited {n r : String} (def_ : m.type n = .alias (.ref r) true) (original : HasInitEmpty r) :
      HasInitEmpty n

/-- What is required of a member of a SEQUENCE. -/
def RegularMember (e : NamedType) (v : JsValue) : Prop :=
  match m.memberCode e.type with
  | .simple .null => e.optional = true → v = .undefined
  | .simple .octetString =>
      e.optional = true → v = .undefined ∨ v ≠ .bytes [] ∧ plain e.fieldName = true
  | .simple _ => True
  | .systemTime => v = .undefined ∨
      (∃ t, v = .date (some t) ∧ ValidTime t) ∧ (e.optional = true → plain e.fieldName = true)
  | .converter r => Converter.converterOf m r = .ok () ∧
      (e.optional = false → HasInitEmpty m r ∨ ∃ element, m.type r = .sequenceOf element)

/-- The condition on a definition and a value of it, apart from what the value is made of. -/
def RegularPart (n : String) (v : JsValue) : Prop :=
  Converter.converterOf m n = .ok () ∧
    match m.type n, v with
    | .alias (.ref _) _, _ => True
    | .sequence es, .object get => ∀ e ∈ es, RegularMember m e (get e.name)
    | .choice es, .object get => ∀ e ∈ es, get e.name ≠ .undefined →
        m.choiceDecoderCode e.type = m.memberCode e.type
    | .sequenceOf element, .array vs => vs = [] ∨
        m.elementDecoderCode element = m.elementEncoderCode element ∧
          m.elementEncoderCode element ≠ .simple .octetString
    | _, _ => False

end Typing

/-- ASN.1's rules for the names of members. -/
def Definitions.DistinctNames (m : Definitions) : Prop :=
  ∀ n es, m.type n = .sequence es ∨ m.type n = .choice es →
    (es.map NamedType.name).Nodup ∧ ∀ e ∈ es, e.name ≠ "_type"

/-- No error is there that the mark does not cover. -/
def ConverterErrors.Settled (c : ConverterErrors) : Prop := c.errors.length ≤ c.lastStoredErrorCount

namespace Converter

/-! ### Calm statements -/

section Calm

variable {α β : Type}

/-- It ends with `a`, and without an error. -/
def Calm (x : Converter α) (a : α) : Prop :=
  ∀ c : ConverterErrors, c.Settled → ∃ c', x.run c = .ok (a, c') ∧ c'.Settled ∧ c'.errors = c.errors

/-- The same whatever there was before, as a converter sets the mark by itself. -/
def Succeeds (x : Converter α) (a : α) : Prop :=
  ∀ c : ConverterErrors, ∃ c', x.run c = .ok (a, c') ∧ c'.Settled ∧ c'.errors = c.errors

theorem Succeeds.calm {x : Converter α} {a : α} (h : Succeeds x a) : Calm x a :=
  fun c _ => h c

theorem Calm.pure (a : α) : Calm (pure a) a :=
  fun c hc => ⟨c, rfl, hc, rfl⟩

theorem Calm.bind {x : Converter α} {f : α → Converter β} {a : α} {b : β} (hx : Calm x a)
    (hf : Calm (f a) b) : Calm (x >>= f) b := by
  intro c hc
  obtain ⟨c₁, hrun₁, hc₁, herrors₁⟩ := hx c hc
  obtain ⟨c₂, hrun₂, hc₂, herrors₂⟩ := hf c₁ hc₁
  refine ⟨c₂, ?_, hc₂, herrors₂.trans herrors₁⟩
  rw [StateT.run_bind, hrun₁]
  exact hrun₂

theorem Calm.lift {x : Except JsException α} {a : α} (h : x = .ok a) :
    Calm (liftM x : Converter α) a := by
  subst h
  exact fun c hc => ⟨c, rfl, hc, rfl⟩

theorem Calm.addContext (name : Option String) (objectName : String) :
    Calm (addContext name objectName) () :=
  fun _ hc => ⟨_, rfl, hc, rfl⟩

/-- Nothing has been recorded, so the result is valid. -/
theorem Calm.validateResult (encoding : Bool) (objectName : String) :
    Calm (validateResult encoding objectName) true := by
  intro c hc
  have hnew : ¬c.errors.length > c.lastStoredErrorCount := Nat.not_lt.2 hc
  refine ⟨c, ?_, hc, rfl⟩
  simp only [Converter.validateResult, hasNewErrors, bind_assoc, pure_bind]
  simp only [StateT.run_bind, StateT.run_get, pure_bind, hnew, decide_false, Bool.false_eq_true,
    if_false]
  rfl

/-- What a converter does around its own statements. -/
theorem Calm.succeeds {x : Converter α} {a : α} (h : Calm x a) :
    Succeeds (storeState >>= fun _ => x) a := by
  intro c
  exact h { c with lastStoredErrorCount := c.errors.length } (Nat.le_refl _)

end Calm

/-! ### The checks -/

section Checks

variable {get : String → JsValue} {name : String} {expectedType : ExpectedType}

theorem calm_validateParam {optional : Bool} (h : fits expectedType (get name) = true) :
    Calm (validateParam (.object get) name expectedType optional) true := by
  rw [validateParam]
  cases hvalue : get name with
  | undefined => rw [hvalue] at h; cases expectedType <;> cases h
  | null => rw [hvalue] at h; cases expectedType <;> cases h
  | _ =>
      rw [hvalue] at h
      simp only [h, if_true]
      exact .pure _

theorem calm_validateParam_null {optional : Bool} (h : get name = .null) :
    Calm (validateParam (.object get) name .null optional) true := by
  rw [validateParam, h]
  exact .pure _

theorem calm_validateParam_absent (h : get name = .undefined) :
    Calm (validateParam (.object get) name expectedType true) false := by
  rw [validateParam, h]
  exact .bind (.pure _) (.pure _)

/-- The types of the values that pass the check for elements. -/
theorem calm_validateParamType {type : SimpleType} {v : JsValue} (h : HasSimpleType type v)
    (typeName : String) : Calm (validateParamType v typeName type.jsonType false) true := by
  cases type <;> cases v <;> first | exact absurd h id | exact .pure _

end Checks

/-! ### Members -/

section Members

variable {js : Runtime} {m : Definitions}

/-- The value in the JSON object for the value of a member of a simple type. -/
def written (type : SimpleType) (v : JsValue) : JsValue :=
  match type, v with
  | .octetString, .bytes octets => .string (encode64 octets)
  | _, v => v

theorem asJSON_simple {type : SimpleType} {v : JsValue} (h : HasSimpleType type v) :
    asJSON js type.jsonType v = .ok (written type v) := by
  cases type <;> cases v <;> first | exact absurd h id | rfl

theorem fits_simple {type : SimpleType} {v : JsValue} (h : HasSimpleType type v)
    (hnull : type ≠ .null) : fits type.jsonType v = true := by
  cases type <;> cases v <;> first | exact absurd h id | rfl | exact absurd rfl hnull

/-- Nothing is written for a member that is not there. -/
theorem update_undefined {g : String → JsValue} {name : String} (h : g name = .undefined) :
    Function.update g name .undefined = g := by
  rw [← h, Function.update_eq_self]

/-- A parameter that passes its check is filled in. -/
theorem calm_fillJSONParam {get g : String → JsValue} {name : String}
    {expectedType : ExpectedType} {optional : Bool} {w : JsValue}
    (hvalid : Calm (validateParam (.object get) name expectedType optional) true)
    (has : asJSON js expectedType (get name) = .ok w) :
    Calm (fillJSONParam js (.object get) (.object g) name expectedType optional)
      (.object (Function.update g name w)) := by
  refine hvalid.bind ?_
  rw [if_pos rfl]
  exact .bind (.lift rfl) (.bind (.lift has) (.pure _))

theorem calm_fillJSONParam_absent {get g : String → JsValue} {name : String}
    {expectedType : ExpectedType} (h : get name = .undefined) (hg : g name = .undefined) :
    Calm (fillJSONParam js (.object get) (.object g) name expectedType true)
      (.object (Function.update g name (get name))) := by
  rw [h, update_undefined hg]
  refine (calm_validateParam_absent h).bind ?_
  rw [if_neg (by decide)]
  exact .pure _

end Members

/-! ### The statements for one member -/

section Carried

variable (js : Runtime) (m : Definitions)
  (enc : String → Option String → JsValue → Converter JsValue)
  (dec : String → Option String → Bool → JsValue → Converter JsValue)

/-- The value of a member goes through its statements as `w`; the default value is there before
it is decoded. -/
structure Carries (e : NamedType) (v w : JsValue) : Prop where
  encodes : ∀ get g : String → JsValue, get e.name = v → g e.name = .undefined →
    Calm (encodeMember js enc (m.memberCode e.type) e (.object get) (.object g))
      (.object (Function.update g e.name w))
  decodes : ∀ s g : String → JsValue, s e.name = w → (v = .undefined → g e.name = .undefined) →
    (v = .null → g e.name = .null) →
    Calm (decodeMember js m dec e (.object s) (.object g)) (.object (Function.update g e.name v))

variable {js m enc dec}

/-- A text that is not there. -/
theorem calm_decodeText_absent {e : NamedType} {convert : JsValue → Except JsException JsValue}
    {s g : String → JsValue} (hoptional : e.optional = true) (hs : s e.name = .undefined) :
    Calm (decodeText e convert (.object s) (.object g)) (.object g) := by
  have habsent : Calm (validateParam (.object s) (fixName e.fieldName) .string true) false :=
    calm_validateParam_absent hs
  rw [decodeText, hoptional]
  refine habsent.bind ?_
  rw [if_neg (by decide)]
  exact .pure _

/-- A text that is there and not lost. -/
theorem calm_decodeText {e : NamedType} {convert : JsValue → Except JsException JsValue}
    {s g : String → JsValue} {text : String} {v : JsValue} (hs : s e.name = .string text)
    (hkept : e.optional = true → text ≠ "" ∧ plain e.fieldName = true)
    (hv : convert (.string text) = .ok v) :
    Calm (decodeText e convert (.object s) (.object g))
      (.object (Function.update g e.name v)) := by
  have hvalid : Calm (validateParam (.object s) (fixName e.fieldName) .string e.optional) true :=
    calm_validateParam (by rw [show s (fixName e.fieldName) = _ from hs]; rfl)
  have hlost : (e.optional && !plain e.fieldName) = false := by
    cases ho : e.optional with
    | false => rfl
    | true => rw [(hkept ho).2]; rfl
  have hempty : (e.optional && !(JsValue.string text).truthy) = false := by
    cases ho : e.optional with
    | false => rfl
    | true => simp [JsValue.truthy, (hkept ho).1]
  have hproperty : (JsValue.object s).property (fixName e.fieldName) = .ok (.string text) :=
    congrArg Except.ok hs
  rw [decodeText]
  refine hvalid.bind ?_
  rw [if_pos rfl, if_neg (by rw [hlost]; decide)]
  refine (Calm.lift hproperty).bind ?_
  rw [if_neg (by rw [hempty]; decide)]
  exact (Calm.lift hv).bind (.pure _)

/-- An optional member that is not there. -/
theorem carries_absent {e : NamedType} (hoptional : e.optional = true)
    (hregular : RegularMember m e .undefined)
    (hdec : ∀ r name, converterOf m r = .ok () → Calm (dec r name true .undefined) .undefined) :
    Carries js m enc dec e .undefined .undefined := by
  constructor
  case encodes =>
    intro get g hget hg
    have hfill (expectedType : ExpectedType) := @calm_fillJSONParam_absent js get g e.name
      expectedType hget hg
    rw [hget] at hfill
    cases hcode : m.memberCode e.type with
    | simple type =>
        simp only [encodeMember, hoptional]
        exact hfill _
    | systemTime =>
        simp only [encodeMember, hoptional]
        exact hfill _
    | converter r =>
        have hproperty : (JsValue.object get).property (fixName e.fieldName) = .ok .undefined :=
          congrArg Except.ok hget
        rw [update_undefined hg]
        simp only [encodeMember, hoptional]
        exact (Calm.lift hproperty).bind (.pure _)
  case decodes =>
    intro s g hs hg _
    have hfill (expectedType : ExpectedType) := @calm_fillJSONParam_absent js s g e.name
      expectedType hs (hg rfl)
    rw [hs] at hfill
    rw [RegularMember] at hregular
    cases hcode : m.memberCode e.type with
    | simple type =>
        cases type with
        | null =>
            rw [update_undefined (hg rfl)]
            simp only [decodeMember, hcode]
            exact .pure _
        | octetString =>
            rw [update_undefined (hg rfl)]
            simp only [decodeMember, hcode]
            exact calm_decodeText_absent hoptional hs
        | _ =>
            simp only [decodeMember, hcode, hoptional]
            exact hfill _
    | systemTime =>
        rw [update_undefined (hg rfl)]
        simp only [decodeMember, hcode]
        exact calm_decodeText_absent hoptional hs
    | converter r =>
        rw [hcode] at hregular
        have hproperty : (JsValue.object s).property (fixName e.fieldName) = .ok .undefined :=
          congrArg Except.ok hs
        rw [update_undefined (hg rfl)]
        simp only [decodeMember, hcode, hoptional]
        exact (Calm.lift hproperty).bind ((hdec r _ hregular.1).bind (.pure _))

/-- A value of a simple type is written in the same way as a member and as an alternative. -/
theorem calm_encodeMember_simple {e : NamedType} {type : SimpleType} {v : JsValue}
    (hcode : m.memberCode e.type = .simple type) (hv : HasSimpleType type v)
    {get : String → JsValue} (g : String → JsValue) (hget : get e.name = v) :
    Calm (encodeMember js enc (m.memberCode e.type) e (.object get) (.object g))
      (.object (Function.update g e.name (written type v))) := by
  have hwritten : asJSON js type.jsonType (get e.name) = .ok (written type v) := by
    rw [hget, asJSON_simple hv]
  rw [hcode]
  simp only [encodeMember]
  by_cases hnull : type = .null
  · subst hnull
    cases v <;> first | exact absurd hv id | skip
    exact calm_fillJSONParam (calm_validateParam_null hget) hwritten
  · refine calm_fillJSONParam (calm_validateParam ?_) hwritten
    rw [show get (fixName e.fieldName) = v from hget]
    exact fits_simple hv hnull

/-- A member of a simple type that is there. -/
theorem carries_simple {e : NamedType} {type : SimpleType} {v : JsValue}
    (hcode : m.memberCode e.type = .simple type) (hv : HasSimpleType type v)
    (hregular : RegularMember m e v) : Carries js m enc dec e v (written type v) := by
  rw [RegularMember, hcode] at hregular
  constructor
  case encodes =>
    intro get g hget _
    exact calm_encodeMember_simple hcode hv g hget
  case decodes =>
    intro s g hs hundefined hnull
    simp only [decodeMember, hcode]
    cases type with
    | null =>
        cases v <;> first | exact absurd hv id | skip
        rw [← hnull rfl, Function.update_eq_self]
        exact .pure _
    | octetString =>
        cases v <;> first | exact absurd hv id | skip
        next octets =>
          refine calm_decodeText hs (fun hoptional => ?_) ?_
          · rcases hregular hoptional with hregular | ⟨hne, hplain⟩
            · cases hregular
            · refine ⟨fun hempty => hne ?_, hplain⟩
              have hnil := congrArg decode64 hempty
              rw [decode64_encode64] at hnil
              rw [Option.some.inj hnil]
              rfl
          · rw [fromText, decode64_encode64]
    | _ =>
        cases v <;> first | exact absurd hv id | skip
        refine calm_fillJSONParam (calm_validateParam ?_) (congrArg _ hs)
        rw [show s (fixName e.fieldName) = _ from hs]
        rfl

/-- A date that is there. -/
theorem carries_time (hjs : js.DatesComeBack) {e : NamedType} {t : ℤ}
    (hcode : m.memberCode e.type = .systemTime) (ht : ValidTime t)
    (hplain : e.optional = true → plain e.fieldName = true) :
    Carries js m enc dec e (.date (some t)) (.string (js.toISOString t)) := by
  constructor
  case encodes =>
    intro get g hget hg
    rw [hcode]
    simp only [encodeMember]
    refine calm_fillJSONParam (calm_validateParam ?_) ?_
    · rw [show get (fixName e.fieldName) = _ from hget]
      rfl
    · rw [show get (fixName e.fieldName) = _ from hget]
      rfl
  case decodes =>
    intro s g hs _ _
    simp only [decodeMember, hcode]
    refine calm_decodeText hs (fun hoptional => ⟨(hjs t ht).2, hplain hoptional⟩) ?_
    rw [fromDateText, (hjs t ht).1]

/-- A value with a converter is written in the same way as a member and as an alternative. -/
theorem calm_encodeMember_converter {e : NamedType} {r : String} {v w : JsValue}
    (hcode : m.memberCode e.type = .converter r) (hv : v.truthy = true) (hw : w.truthy = true)
    (henc : ∀ name, Calm (enc r name v) w) {get : String → JsValue} (g : String → JsValue)
    (hget : get e.name = v) :
    Calm (encodeMember js enc (m.memberCode e.type) e (.object get) (.object g))
      (.object (Function.update g e.name w)) := by
  have hproperty : (JsValue.object get).property (fixName e.fieldName) = .ok v :=
    congrArg Except.ok hget
  rw [hcode]
  simp only [encodeMember]
  refine (Calm.lift hproperty).bind ?_
  rw [if_neg (by rw [hv]; simp)]
  refine (henc _).bind ?_
  rw [if_pos hw]
  exact .pure _

/-- A member with a converter that is there. -/
theorem carries_converter {e : NamedType} {r : String} {v w : JsValue}
    (hcode : m.memberCode e.type = .converter r) (hv : v.truthy = true) (hw : w.truthy = true)
    (henc : ∀ name, Calm (enc r name v) w)
    (hdec : ∀ name optional, Calm (dec r name optional w) v) :
    Carries js m enc dec e v w := by
  constructor
  case encodes =>
    intro get g hget _
    exact calm_encodeMember_converter hcode hv hw henc g hget
  case decodes =>
    intro s g hs _ _
    have hproperty : (JsValue.object s).property (fixName e.fieldName) = .ok w :=
      congrArg Except.ok hs
    simp only [decodeMember, hcode]
    refine (Calm.lift hproperty).bind ((hdec _ _).bind ?_)
    rw [if_pos hv]
    exact .pure _

end Carried

/-! ### All members of a SEQUENCE -/

/-- The members are filled one after the other. -/
def updates (values : NamedType → JsValue) (es : List NamedType) (g : String → JsValue) :
    String → JsValue :=
  es.foldl (fun g e => Function.update g e.name (values e)) g

section Updates

variable {values : NamedType → JsValue} {es : List NamedType}

theorem updates_other {name : String} (g : String → JsValue) (h : ∀ e ∈ es, e.name ≠ name) :
    updates values es g name = g name := by
  induction es generalizing g with
  | nil => rfl
  | cons e es ih =>
      rw [updates, List.foldl_cons]
      refine (ih _ fun e' he' => h e' (List.mem_cons_of_mem _ he')).trans ?_
      exact Function.update_of_ne (h e List.mem_cons_self).symm _ _

theorem updates_name {e : NamedType} (g : String → JsValue) (hes : (es.map NamedType.name).Nodup)
    (he : e ∈ es) : updates values es g e.name = values e := by
  induction es generalizing g with
  | nil => cases he
  | cons e' es ih =>
      rw [List.map_cons, List.nodup_cons] at hes
      rw [updates, List.foldl_cons]
      rcases List.mem_cons.1 he with rfl | he
      · have hother : ∀ e' ∈ es, e'.name ≠ e.name :=
          fun e' he' hname => hes.1 (hname ▸ List.mem_map_of_mem he')
        exact (updates_other _ hother).trans (Function.update_self _ _ _)
      · exact ih _ hes.2 he

/-- Two members of one name are the same. -/
theorem eq_of_name {e e' : NamedType} (hes : (es.map NamedType.name).Nodup) (he : e ∈ es)
    (he' : e' ∈ es) (h : e.name = e'.name) : e = e' :=
  List.inj_on_of_nodup_map hes he he' h

end Updates

section Sequences

variable {js : Runtime} {m : Definitions}
  {enc : String → Option String → JsValue → Converter JsValue}
  {dec : String → Option String → Bool → JsValue → Converter JsValue}
  {get : String → JsValue} {w : NamedType → JsValue} {es : List NamedType}

theorem calm_encodeSequence (hes : (es.map NamedType.name).Nodup)
    (hcarries : ∀ e ∈ es, Carries js m enc dec e (get e.name) (w e)) {g : String → JsValue}
    (hg : ∀ e ∈ es, g e.name = .undefined) :
    Calm (encodeSequence js m enc (.object get) es (.object g)) (.object (updates w es g)) := by
  induction es generalizing g with
  | nil => exact .pure _
  | cons e es ih =>
      rw [List.map_cons, List.nodup_cons] at hes
      have hstep := (hcarries e List.mem_cons_self).encodes get g rfl (hg e List.mem_cons_self)
      refine hstep.bind (ih hes.2 (fun e' he' => hcarries e' (List.mem_cons_of_mem _ he')) ?_)
      intro e' he'
      have hne : e'.name ≠ e.name := fun hsame =>
        hes.1 (hsame ▸ List.mem_map_of_mem (f := NamedType.name) he')
      rw [Function.update_of_ne hne]
      exact hg e' (List.mem_cons_of_mem _ he')

/-- What stands in the target before a member is decoded. -/
def Default (v d : JsValue) : Prop := (v = .undefined → d = .undefined) ∧ (v = .null → d = .null)

theorem calm_decodeSequence (hes : (es.map NamedType.name).Nodup)
    (hcarries : ∀ e ∈ es, Carries js m enc dec e (get e.name) (w e)) {s g : String → JsValue}
    (hs : ∀ e ∈ es, s e.name = w e) (hg : ∀ e ∈ es, Default (get e.name) (g e.name)) :
    Calm (decodeSequence js m dec (.object s) es (.object g))
      (.object (updates (fun e => get e.name) es g)) := by
  induction es generalizing g with
  | nil => exact .pure _
  | cons e es ih =>
      rw [List.map_cons, List.nodup_cons] at hes
      have hdefault := hg e List.mem_cons_self
      have hstep := (hcarries e List.mem_cons_self).decodes s g (hs e List.mem_cons_self)
        hdefault.1 hdefault.2
      refine hstep.bind (ih hes.2 (fun e' he' => hcarries e' (List.mem_cons_of_mem _ he'))
        (fun e' he' => hs e' (List.mem_cons_of_mem _ he')) ?_)
      intro e' he'
      have hne : e'.name ≠ e.name := fun hsame =>
        hes.1 (hsame ▸ List.mem_map_of_mem (f := NamedType.name) he')
      rw [Function.update_of_ne hne]
      exact hg e' (List.mem_cons_of_mem _ he')

/-- The object that decoding starts with. -/
theorem emptyMembers_eq {init : String → Except JsException JsValue} {d : NamedType → JsValue}
    (hd : ∀ e ∈ es, e.optional = false → defaultValue js m init e.type = .ok (d e))
    (g : String → JsValue) : emptyMembers js m init es (.object g) =
      .ok (.object (updates d (es.filter fun e => !e.optional) g)) := by
  induction es generalizing g with
  | nil => rfl
  | cons e es ih =>
      have hrest := ih fun e' he' => hd e' (List.mem_cons_of_mem _ he')
      rw [emptyMembers]
      cases ho : e.optional with
      | true =>
          rw [if_pos rfl, List.filter_cons_of_neg (by simp [ho]), hrest]
      | false =>
          rw [if_neg (by decide), hd e List.mem_cons_self ho,
            List.filter_cons_of_pos (by simp [ho])]
          exact hrest _

end Sequences

/-! ### One alternative of a CHOICE -/

section Choices

variable {js : Runtime} {m : Definitions}
  {enc : String → Option String → JsValue → Converter JsValue}
  {dec : String → Option String → Bool → JsValue → Converter JsValue}
  {get : String → JsValue} {es : List NamedType} {e : NamedType}

theorem calm_encodeChoice {g : String → JsValue} {t : JsValue}
    (hes : (es.map NamedType.name).Nodup) (hplain : ∀ e ∈ es, plain e.fieldName = true)
    (he : e ∈ es) (hothers : ∀ name, e.name ≠ name → get name = .undefined)
    (hchosen : (if m.memberCode e.type = .simple .null then (get e.name).isNull
      else !(get e.name).isNullish) = true)
    (h : Calm (encodeMember js enc (m.memberCode e.type) e (.object get) (.object g)) t) :
    Calm (encodeChoice js m enc (.object get) (.object g) es) t := by
  induction es with
  | nil => cases he
  | cons e' es ih =>
      have hname : e'.fieldName = e'.name :=
        (of_decide_eq_true (hplain e' List.mem_cons_self)).symm
      have hproperty : (JsValue.object get).property e'.fieldName = .ok (get e'.name) := by
        rw [hname]
        rfl
      rw [encodeChoice]
      refine (Calm.lift hproperty).bind ?_
      rw [List.map_cons, List.nodup_cons] at hes
      rcases List.mem_cons.1 he with rfl | he
      · rw [if_pos hchosen]
        exact h
      · have hne : e.name ≠ e'.name := fun hsame => hes.1 (hsame ▸ List.mem_map_of_mem he)
        rw [hothers _ hne]
        have hnot : ¬(if m.memberCode e'.type = .simple .null then JsValue.undefined.isNull
            else !JsValue.undefined.isNullish) = true := by
          split <;> decide
        rw [if_neg hnot]
        exact ih hes.2 (fun e he => hplain e (List.mem_cons_of_mem _ he)) he

theorem calm_decodeChoice {optional : Bool} {s : String → JsValue} {t t' : JsValue}
    (hes : (es.map NamedType.name).Nodup) (hplain : ∀ e ∈ es, plain e.fieldName = true)
    (he : e ∈ es) (hothers : ∀ e' ∈ es, e.name ≠ e'.name → s e'.name = .undefined)
    (hthere : (s e.name).isUndefined = false)
    (h : Calm (decodeAlternative m dec e (.object s) t) t') :
    Calm (decodeChoice m dec optional (.object s) t es) t' := by
  induction es with
  | nil => cases he
  | cons e' es ih =>
      have hname : e'.fieldName = e'.name :=
        (of_decide_eq_true (hplain e' List.mem_cons_self)).symm
      have hproperty : (JsValue.object s).property e'.fieldName = .ok (s e'.name) := by
        rw [hname]
        rfl
      rw [decodeChoice]
      refine (Calm.lift hproperty).bind ?_
      rw [List.map_cons, List.nodup_cons] at hes
      rcases List.mem_cons.1 he with rfl | he
      · rw [if_neg (by rw [hthere]; decide)]
        exact h
      · have hne : e.name ≠ e'.name := fun hsame => hes.1 (hsame ▸ List.mem_map_of_mem he)
        rw [hothers e' List.mem_cons_self hne,
          if_pos (show JsValue.undefined.isUndefined = true from rfl)]
        exact ih hes.2 (fun e he => hplain e (List.mem_cons_of_mem _ he)) he
          (fun e' he' => hothers e' (List.mem_cons_of_mem _ he'))

/-- The alternative is written as it would be in a SEQUENCE, and read by a statement of the same
case. -/
theorem calm_decodeAlternative {s : String → JsValue} {v w : JsValue}
    (hplain : plain e.fieldName = true) (hcode : m.choiceDecoderCode e.type = m.memberCode e.type)
    (hs : s e.name = w) (g : String → JsValue)
    (hsimple : ∀ type, m.memberCode e.type = .simple type → HasSimpleType type v ∧
      w = written type v)
    (htime : m.memberCode e.type ≠ .systemTime)
    (hnested : ∀ r, m.memberCode e.type = .converter r → ∀ name optional,
      Calm (dec r name optional w) v) :
    Calm (decodeAlternative m dec e (.object s) (.object g))
      (.object (Function.update g e.name v)) := by
  have hname : e.fieldName = e.name := (of_decide_eq_true hplain).symm
  have hproperty : (JsValue.object s).property e.name = .ok w := congrArg Except.ok hs
  rw [decodeAlternative, hcode, hname]
  cases hmember : m.memberCode e.type with
  | simple type =>
      obtain ⟨hv, rfl⟩ := hsimple type hmember
      cases type with
      | octetString =>
          cases v <;> first | exact absurd hv id | skip
          refine (calm_validateParam (by rw [hs]; rfl)).bind ?_
          rw [if_pos rfl]
          refine (Calm.lift hproperty).bind ((Calm.lift ?_).bind (.pure _))
          rw [written, fromText, decode64_encode64]
      | null =>
          cases v <;> first | exact absurd hv id | skip
          refine (calm_validateParam_null hs).bind ?_
          rw [if_pos rfl]
          exact (Calm.lift hproperty).bind (.pure _)
      | _ =>
          cases v <;> first | exact absurd hv id | skip
          refine (calm_validateParam (by rw [hs]; rfl)).bind ?_
          rw [if_pos rfl]
          exact (Calm.lift hproperty).bind (.pure _)
  | systemTime => exact absurd hmember htime
  | converter r =>
      exact (Calm.lift hproperty).bind ((hnested r hmember _ _).bind (.pure _))

end Choices

/-! ### The elements of a list -/

section Elements

variable {enc : String → Option String → JsValue → Converter JsValue}
  {dec : String → Option String → Bool → JsValue → Converter JsValue}

/-- An element goes through as `w`. -/
def CarriesElement (enc : String → Option String → JsValue → Converter JsValue)
    (dec : String → Option String → Bool → JsValue → Converter JsValue) :
    Code → JsValue → JsValue → Prop
  | .simple type, v, w => HasSimpleType type v ∧ w = v
  | .systemTime, _, _ => False
  | .converter r, v, w => v.truthy = true ∧ w.truthy = true ∧ (∀ name, Calm (enc r name v) w) ∧
      ∀ name, Calm (dec r name false w) v

theorem isUndefined_of_truthy {v : JsValue} (h : v.truthy = true) : v.isUndefined = false := by
  cases v <;> first | rfl | cases h

theorem calm_encodeElements {code : Code} {vs ws : List JsValue}
    (h : List.Forall₂ (CarriesElement enc dec code) vs ws) (typeName : String)
    (t : List JsValue) : Calm (encodeElements enc typeName code vs t) (t ++ ws) := by
  induction h generalizing t with
  | nil => rw [List.append_nil]; exact .pure _
  | @cons v w vs ws hvw _ ih =>
      cases code with
      | simple type =>
          obtain ⟨hv, rfl⟩ := hvw
          rw [encodeElements]
          refine (calm_validateParamType hv typeName).bind ?_
          have hrest := ih (t ++ [w])
          rw [List.append_assoc] at hrest
          rw [if_pos rfl]
          exact hrest
      | systemTime => exact absurd hvw id
      | converter r =>
          obtain ⟨hv, hw, henc, -⟩ := hvw
          have hrest := ih (t ++ [w])
          rw [List.append_assoc] at hrest
          rw [encodeElements, if_neg (by rw [isUndefined_of_truthy hv]; decide)]
          refine (henc _).bind ?_
          rw [if_pos hw]
          exact hrest

theorem calm_decodeElements {code : Code} {vs ws : List JsValue}
    (h : List.Forall₂ (CarriesElement enc dec code) vs ws)
    (hoctets : code ≠ .simple .octetString) (typeName : String)
    (t : List JsValue) : Calm (decodeElements dec typeName code ws t) (t ++ vs) := by
  induction h generalizing t with
  | nil => rw [List.append_nil]; exact .pure _
  | @cons v w vs ws hvw _ ih =>
      cases code with
      | simple type =>
          obtain ⟨hv, rfl⟩ := hvw
          have hrest := ih (t ++ [w])
          rw [List.append_assoc] at hrest
          have hvalid := calm_validateParamType hv typeName
          cases type with
          | octetString => exact absurd rfl hoctets
          | _ =>
              simp only [decodeElements]
              refine hvalid.bind ?_
              rw [if_pos rfl]
              exact hrest
      | systemTime => exact absurd hvw id
      | converter r =>
          obtain ⟨hv, hw, -, hdec⟩ := hvw
          have hrest := ih (t ++ [v])
          rw [List.append_assoc] at hrest
          rw [decodeElements, if_neg (by rw [isUndefined_of_truthy hw]; decide)]
          refine (hdec _).bind ?_
          rw [if_pos hv]
          exact hrest

end Elements

/-! ### Whole values -/

section Values

variable (js : Runtime) (m : Definitions) (bAddTypes : Bool)

/-- An object or a list. -/
def structured : JsValue → Bool
  | .array _ | .object _ => true
  | _ => false

/-- The value goes through the converters of `n` as `t`. -/
structure Passes (stack : ℕ) (n : String) (v t : JsValue) : Prop where
  encodes : ∀ name, Succeeds (toJSON js m bAddTypes stack n name v) t
  decodes : ∀ name optional, Succeeds (fromJSON js m stack n name optional t) v

/-- With stack enough for all nested calls, `toJSON` has a result, and `fromJSON` makes the same
value of it, whatever has been recorded in the lists before. -/
def RoundTrips (n : String) (v : JsValue) : Prop :=
  ∃ depth, ∀ stack ≥ depth, ∀ name name' optional c c', ∃ t c₁ c₂,
    (toJSON js m bAddTypes stack n name v).run c = .ok (t, c₁) ∧
      (fromJSON js m stack n name' optional t).run c' = .ok (v, c₂)

variable {js m bAddTypes}

theorem structured_truthy {v : JsValue} (h : structured v = true) : v.truthy = true := by
  cases v <;> first | rfl | cases h

theorem structured_prepare {v : JsValue} (h : structured v = true) (optional : Bool) :
    Calm (prepareJSONData js v optional) v := by
  cases v <;> first | exact .pure _ | cases h

section Call

variable {stack : ℕ} {n : String} (hn : converterOf m n = .ok ())

include hn

theorem toJSON_succeeds {name : Option String} {v t : JsValue}
    (h : Calm (encodeBody js m bAddTypes (toJSON js m bAddTypes stack) n name v (m.type n)) t) :
    Succeeds (toJSON js m bAddTypes (stack + 1) n name v) t := by
  rw [toJSON, hn]
  change Succeeds (storeState >>= fun _ => addContext name n >>= fun _ =>
    encodeBody js m bAddTypes (toJSON js m bAddTypes stack) n name v (m.type n) >>= fun t =>
    validateResult true n >>= fun ok => if ok = true then pure t else pure .undefined) t
  refine Calm.succeeds ((Calm.addContext name n).bind (h.bind
    ((Calm.validateResult true n).bind ?_)))
  rw [if_pos rfl]
  exact .pure _

theorem fromJSON_succeeds {name : Option String} {optional : Bool} {data s v : JsValue}
    (hs : Calm (prepareJSONData js data optional) s)
    (h : Calm (if s.truthy then decodeBody js m (fromJSON js m stack) (initEmpty js m stack n) n
      name optional s (m.type n) else pure .undefined) v) :
    Succeeds (fromJSON js m (stack + 1) n name optional data) v := by
  rw [fromJSON, hn]
  change Succeeds (storeState >>= fun _ => addContext name n >>= fun _ =>
    prepareJSONData js data optional >>= fun s =>
    (if s.truthy then decodeBody js m (fromJSON js m stack) (initEmpty js m stack n) n
      name optional s (m.type n) else pure .undefined) >>= fun t =>
    validateResult false n >>= fun ok => if ok = true then pure t else pure .undefined) v
  refine Calm.succeeds ((Calm.addContext name n).bind (hs.bind (h.bind
    ((Calm.validateResult false n).bind ?_))))
  rw [if_pos rfl]
  exact .pure _

/-- Nothing comes from nothing. -/
theorem fromJSON_undefined (name : Option String) :
    Succeeds (fromJSON js m (stack + 1) n name true .undefined) .undefined := by
  refine fromJSON_succeeds hn (s := .undefined) (.bind (.pure _) (.pure _)) ?_
  rw [if_neg (by decide)]
  exact .pure _

/-- The call for a value that is an object or a list. -/
theorem fromJSON_structured {name : Option String} {optional : Bool} {t v : JsValue}
    (ht : structured t = true)
    (h : Calm (decodeBody js m (fromJSON js m stack) (initEmpty js m stack n) n name optional t
      (m.type n)) v) : Succeeds (fromJSON js m (stack + 1) n name optional t) v := by
  refine fromJSON_succeeds hn (structured_prepare ht optional) ?_
  rw [if_pos (structured_truthy ht)]
  exact h

end Call

/-- What holds of each member with stack enough holds of all with stack enough. -/
theorem enough_stack {α : Type} {P : ℕ → α → Prop} {as : List α}
    (h : ∀ a ∈ as, ∃ depth, ∀ stack ≥ depth, P stack a) :
    ∃ depth, ∀ stack ≥ depth, ∀ a ∈ as, P stack a := by
  induction as with
  | nil => exact ⟨0, fun _ _ a ha => absurd ha List.not_mem_nil⟩
  | cons a as ih =>
      obtain ⟨depth₁, h₁⟩ := h a List.mem_cons_self
      obtain ⟨depth₂, h₂⟩ := ih fun a ha => h a (List.mem_cons_of_mem _ ha)
      refine ⟨max depth₁ depth₂, fun stack hstack a' ha' => ?_⟩
      rcases List.mem_cons.1 ha' with rfl | ha'
      · exact h₁ stack (le_trans (Nat.le_max_left _ _) hstack)
      · exact h₂ stack (le_trans (Nat.le_max_right _ _) hstack) a' ha'

/-- What is shown of a value by induction on its type. -/
structure Goes (js : Runtime) (m : Definitions) (bAddTypes : Bool) (n : String) (v : JsValue) :
    Prop where
  value : structured v = true
  passes : ∃ t, structured t = true ∧ ∃ depth, ∀ stack ≥ depth, Passes js m bAddTypes stack n v t
  empty : HasInitEmpty m n → ∃ depth, ∀ stack ≥ depth, ∃ d, initEmpty js m stack n = .ok d

theorem goes_alias {n r : String} {imported : Bool} {v : JsValue}
    (hdef : m.type n = .alias (.ref r) imported) (hn : converterOf m n = .ok ())
    (h : Goes js m bAddTypes r v) : Goes js m bAddTypes n v := by
  obtain ⟨t, ht, depth, hpasses⟩ := h.passes
  refine ⟨h.value, ⟨t, ht, depth + 1, ?_⟩, ?_⟩
  · intro stack hstack
    obtain ⟨stack, rfl⟩ := Nat.exists_eq_add_of_le' (Nat.le_of_add_left_le hstack)
    have hpass := hpasses stack (Nat.le_of_succ_le_succ hstack)
    constructor
    case encodes =>
      intro name
      refine toJSON_succeeds hn ?_
      rw [hdef]
      exact (hpass.encodes name).calm
    case decodes =>
      intro name optional
      refine fromJSON_structured hn ht ?_
      rw [hdef]
      exact (hpass.decodes _ optional).calm
  · intro hempty
    cases hempty with
    | sequence hdef' => rw [hdef] at hdef'; cases hdef'
    | choice hdef' => rw [hdef] at hdef'; cases hdef'
    | inherited hdef' horiginal =>
        rw [hdef] at hdef'
        cases hdef'
        obtain ⟨depth, hdepth⟩ := h.empty horiginal
        refine ⟨depth + 1, fun stack hstack => ?_⟩
        obtain ⟨stack, rfl⟩ := Nat.exists_eq_add_of_le' (Nat.le_of_add_left_le hstack)
        obtain ⟨d, hd⟩ := hdepth stack (Nat.le_of_succ_le_succ hstack)
        refine ⟨d, ?_⟩
        rw [initEmpty, hdef]
        exact hd

/-- The object that `toJSON` starts with has no member yet. -/
theorem newMembers_name {es : List NamedType} (hes : ∀ e ∈ es, e.name ≠ "_type") (n : String) :
    ∀ e ∈ es, newMembers bAddTypes n e.name = .undefined :=
  fun e he => if_neg fun h => hes e he h.2

/-- The object that decoding starts with, and what stands in it. -/
theorem exists_initEmpty {n : String} {es : List NamedType} {get : String → JsValue} {stack : ℕ}
    (hdef : m.type n = .sequence es) (hes : (es.map NamedType.name).Nodup)
    (hdefaults : ∀ e ∈ es, e.optional = false →
      ∃ d, defaultValue js m (initEmpty js m stack) e.type = .ok d ∧
        (get e.name = .null → d = .null))
    (hnull : ∀ e ∈ es, get e.name = .null → e.optional = false)
    (hundefined : ∀ e ∈ es, get e.name = .undefined → e.optional = true) :
    ∃ g, initEmpty js m (stack + 1) n = .ok (.object g) ∧
      (∀ e ∈ es, Default (get e.name) (g e.name)) ∧
      ∀ name, (∀ e ∈ es, e.name ≠ name) → g name = .undefined := by
  choose! d hd using hdefaults
  refine ⟨updates d (es.filter fun e => !e.optional) fun _ => .undefined, ?_, ?_, ?_⟩
  · rw [initEmpty, hdef]
    exact emptyMembers_eq (fun e he ho => (hd e he ho).1) _
  · intro e he
    have hnodup : ((es.filter fun e => !e.optional).map NamedType.name).Nodup :=
      hes.sublist (List.filter_sublist.map _)
    cases ho : e.optional with
    | true =>
        have hother : ∀ e' ∈ es.filter fun e => !e.optional, e'.name ≠ e.name := by
          intro e' he' hname
          rw [List.mem_filter] at he'
          rw [eq_of_name hes he'.1 he hname, ho] at he'
          exact absurd he'.2 (by decide)
        rw [updates_other _ hother]
        exact ⟨fun _ => rfl, fun h => absurd (hnull e he h) (by rw [ho]; decide)⟩
    | false =>
        rw [updates_name _ hnodup (List.mem_filter.2 ⟨he, by simp [ho]⟩)]
        exact ⟨fun h => absurd (hundefined e he h) (by rw [ho]; decide), (hd e he ho).2⟩
  · intro name hname
    exact updates_other _ fun e he => hname e (List.mem_filter.1 he).1

theorem goes_sequence {n : String} {es : List NamedType} {get : String → JsValue}
    (hdef : m.type n = .sequence es) (hn : converterOf m n = .ok ())
    (hes : (es.map NamedType.name).Nodup) (htype : ∀ e ∈ es, e.name ≠ "_type")
    (hmembers : ∀ e ∈ es, ∃ w, ∃ depth, ∀ stack ≥ depth,
      Carries js m (toJSON js m bAddTypes stack) (fromJSON js m stack) e (get e.name) w)
    (hdefaults : ∀ e ∈ es, ∃ depth, ∀ stack ≥ depth, e.optional = false →
      ∃ d, defaultValue js m (initEmpty js m stack) e.type = .ok d ∧
        (get e.name = .null → d = .null))
    (hnull : ∀ e ∈ es, get e.name = .null → e.optional = false)
    (hundefined : ∀ e ∈ es, get e.name = .undefined → e.optional = true)
    (hothers : ∀ name, (∀ e ∈ es, e.name ≠ name) → get name = .undefined) :
    Goes js m bAddTypes n (.object get) := by
  choose! w hw using hmembers
  obtain ⟨depth, hcarries⟩ := enough_stack hw
  obtain ⟨depth', hvalues⟩ := enough_stack hdefaults
  have hempty (stack : ℕ) (hstack : stack ≥ depth') :=
    exists_initEmpty hdef hes (hvalues stack hstack) hnull hundefined
  refine ⟨rfl, ⟨.object (updates w es (newMembers bAddTypes n)), rfl, max depth depth' + 2, ?_⟩, ?_⟩
  · intro stack hstack
    obtain ⟨stack, rfl⟩ := Nat.exists_eq_add_of_le' (le_trans (Nat.le_add_left 2 _) hstack)
    have hle := Nat.le_of_add_le_add_right hstack
    have hall := hcarries (stack + 1) (Nat.le_succ_of_le (le_trans (Nat.le_max_left _ _) hle))
    constructor
    case encodes =>
      intro name
      refine toJSON_succeeds hn ?_
      rw [hdef]
      exact calm_encodeSequence hes hall (newMembers_name htype n)
    case decodes =>
      intro name optional
      refine fromJSON_structured hn rfl ?_
      obtain ⟨g, hg, hdefault, hother⟩ := hempty stack (le_trans (Nat.le_max_right _ _) hle)
      have hget : updates (fun e => get e.name) es g = get := by
        funext name
        by_cases hname : ∃ e ∈ es, e.name = name
        · obtain ⟨e, he, rfl⟩ := hname
          rw [updates_name _ hes he]
        · have hname' : ∀ e ∈ es, e.name ≠ name := fun e he h => hname ⟨e, he, h⟩
          rw [updates_other _ hname', hother name hname', hothers name hname']
      rw [hdef, hg]
      refine (Calm.lift rfl).bind ?_
      have hs (e : NamedType) (he : e ∈ es) : updates w es (newMembers bAddTypes n) e.name = w e :=
        updates_name _ hes he
      have hdecode := calm_decodeSequence hes hall hs hdefault
      rwa [hget] at hdecode
  · intro _
    refine ⟨depth' + 1, fun stack hstack => ?_⟩
    obtain ⟨stack, rfl⟩ := Nat.exists_eq_add_of_le' (Nat.le_of_add_left_le hstack)
    obtain ⟨g, hg, -⟩ := hempty stack (Nat.le_of_succ_le_succ hstack)
    exact ⟨_, hg⟩

/-- A CHOICE with a converter has no hyphen in the names of its alternatives. -/
theorem plain_of_converterOf {n : String} {es : List NamedType} (hdef : m.type n = .choice es)
    (hn : converterOf m n = .ok ()) : ∀ e ∈ es, plain e.fieldName = true := by
  rw [converterOf, hdef] at hn
  have hcompiles : compiles m (.choice es) = true := by
    by_contra hnot
    rw [Bool.not_eq_true] at hnot
    rw [hnot] at hn
    split at hn <;> cases hn
  exact List.all_eq_true.1 hcompiles

theorem goes_choice {n : String} {es : List NamedType} {get : String → JsValue} {e : NamedType}
    {w : JsValue} (hdef : m.type n = .choice es) (hn : converterOf m n = .ok ())
    (hes : (es.map NamedType.name).Nodup) (htype : ∀ e ∈ es, e.name ≠ "_type") (he : e ∈ es)
    (hchosen : (if m.memberCode e.type = .simple .null then (get e.name).isNull
      else !(get e.name).isNullish) = true) (hw : w.isUndefined = false)
    (hcarries : ∃ depth, ∀ stack ≥ depth,
      (∀ g : String → JsValue, Calm (encodeMember js (toJSON js m bAddTypes stack)
        (m.memberCode e.type) e (.object get) (.object g)) (.object (Function.update g e.name w))) ∧
      ∀ s g : String → JsValue, s e.name = w →
        Calm (decodeAlternative m (fromJSON js m stack) e (.object s) (.object g))
          (.object (Function.update g e.name (get e.name))))
    (hothers : ∀ name, e.name ≠ name → get name = .undefined) :
    Goes js m bAddTypes n (.object get) := by
  obtain ⟨depth, hcarries⟩ := hcarries
  have hplain := plain_of_converterOf hdef hn
  refine ⟨rfl, ⟨.object (Function.update (newMembers bAddTypes n) e.name w), rfl, depth + 2, ?_⟩,
    ?_⟩
  · intro stack hstack
    obtain ⟨stack, rfl⟩ := Nat.exists_eq_add_of_le' (le_trans (Nat.le_add_left 2 _) hstack)
    have hall := hcarries (stack + 1) (Nat.le_succ_of_le (Nat.le_of_add_le_add_right hstack))
    constructor
    case encodes =>
      intro name
      refine toJSON_succeeds hn ?_
      rw [hdef]
      exact calm_encodeChoice hes hplain he hothers hchosen (hall.1 _)
    case decodes =>
      intro name optional
      refine fromJSON_structured hn rfl ?_
      have hget : Function.update (fun _ => JsValue.undefined) e.name (get e.name) = get := by
        funext name
        by_cases hname : name = e.name
        · subst hname
          exact Function.update_self _ _ _
        · rw [Function.update_of_ne hname, hothers name fun h => hname h.symm]
      rw [hdef, initEmpty, hdef]
      refine (Calm.lift rfl).bind ?_
      refine calm_decodeChoice hes hplain he ?_ ?_ (hget ▸ hall.2 _ _ ?_)
      · intro e' he' hne
        rw [Function.update_of_ne hne.symm]
        exact newMembers_name htype n e' he'
      · rw [Function.update_self, hw]
      · exact Function.update_self _ _ _
  · intro _
    refine ⟨1, fun stack hstack => ?_⟩
    obtain ⟨stack, rfl⟩ := Nat.exists_eq_add_of_le' hstack
    refine ⟨.object fun _ => .undefined, ?_⟩
    rw [initEmpty, hdef]

theorem goes_sequenceOf {n : String} {element : Ty} {vs : List JsValue}
    (hdef : m.type n = .sequenceOf element) (hn : converterOf m n = .ok ())
    (hvs : ∀ v ∈ vs, ∃ w, ∃ depth, ∀ stack ≥ depth, CarriesElement (toJSON js m bAddTypes stack)
      (fromJSON js m stack) (m.elementEncoderCode element) v w)
    (hcode : vs = [] ∨ m.elementDecoderCode element = m.elementEncoderCode element ∧
      m.elementEncoderCode element ≠ .simple .octetString) :
    Goes js m bAddTypes n (.array vs) := by
  choose! w hw using hvs
  obtain ⟨depth, hcarries⟩ := enough_stack hw
  refine ⟨rfl, ⟨.array (vs.map w), rfl, depth + 1, ?_⟩, ?_⟩
  · intro stack hstack
    obtain ⟨stack, rfl⟩ := Nat.exists_eq_add_of_le' (Nat.le_of_add_left_le hstack)
    have hall : List.Forall₂ (CarriesElement (toJSON js m bAddTypes stack) (fromJSON js m stack)
        (m.elementEncoderCode element)) vs (vs.map w) := by
      rw [List.forall₂_map_right_iff, List.forall₂_same]
      exact hcarries stack (Nat.le_of_succ_le_succ hstack)
    constructor
    case encodes =>
      intro name
      refine toJSON_succeeds hn ?_
      rw [hdef]
      exact (Calm.lift rfl).bind ((calm_encodeElements hall n []).bind (.pure _))
    case decodes =>
      intro name optional
      refine fromJSON_structured hn rfl ?_
      rw [hdef]
      refine (Calm.lift rfl).bind ?_
      rcases hcode with rfl | ⟨hsame, hoctets⟩
      · exact (Calm.pure _).bind (.pure _)
      · rw [hsame]
        exact (calm_decodeElements hall hoctets n []).bind (.pure _)
  · intro hempty
    cases hempty with
    | sequence hdef' => rw [hdef] at hdef'; cases hdef'
    | choice hdef' => rw [hdef] at hdef'; cases hdef'
    | inherited hdef' => rw [hdef] at hdef'; cases hdef'

/-! ### The parts of a value -/

theorem codeOf_ne_systemTime (found : Option SimpleType) (type : Ty) :
    Definitions.codeOf found type ≠ .systemTime := by
  cases found <;> cases type <;> simp [Definitions.codeOf]

theorem written_defined {type : SimpleType} {v : JsValue} (h : HasSimpleType type v) :
    (written type v).isUndefined = false := by
  cases type <;> cases v <;> first | exact absurd h id | rfl

/-- The alternative that is there is found. -/
theorem chosen_simple {type : SimpleType} {code : Code} {v : JsValue} (hcode : code = .simple type)
    (h : HasSimpleType type v) :
    (if code = .simple .null then v.isNull else !v.isNullish) = true := by
  subst hcode
  cases type <;> cases v <;> first | exact absurd h id | rfl

theorem chosen_structured {code : Code} {r : String} {v : JsValue} (hcode : code = .converter r)
    (h : structured v = true) :
    (if code = .simple .null then v.isNull else !v.isNullish) = true := by
  subst hcode
  cases v <;> first | rfl | cases h

/-- A member of a SEQUENCE, given what is known of its parts. -/
theorem exists_carries (hjs : js.DatesComeBack) {e : NamedType} {v : JsValue}
    (hregular : RegularMember m e v) (hundefined : v = .undefined → e.optional = true)
    (hsimple : ∀ type, m.memberCode e.type = .simple type → v = .undefined ∨ HasSimpleType type v)
    (hnested : ∀ r, m.memberCode e.type = .converter r → v ≠ .undefined →
      Goes js m bAddTypes r v) :
    ∃ w, ∃ depth, ∀ stack ≥ depth,
      Carries js m (toJSON js m bAddTypes stack) (fromJSON js m stack) e v w := by
  by_cases hv : v = .undefined
  · subst hv
    refine ⟨.undefined, 1, fun stack hstack => ?_⟩
    obtain ⟨stack, rfl⟩ := Nat.exists_eq_add_of_le' hstack
    exact carries_absent (hundefined rfl) hregular fun r name hr =>
      (fromJSON_undefined hr name).calm
  · cases hcode : m.memberCode e.type with
    | simple type =>
        have htype := (hsimple type hcode).resolve_left hv
        exact ⟨_, 0, fun stack _ => carries_simple hcode htype hregular⟩
    | systemTime =>
        rw [RegularMember, hcode] at hregular
        obtain ⟨⟨t, rfl, ht⟩, hplain⟩ := hregular.resolve_left hv
        exact ⟨_, 0, fun stack _ => carries_time hjs hcode ht hplain⟩
    | converter r =>
        have hgoes := hnested r hcode hv
        obtain ⟨t, ht, depth, hpasses⟩ := hgoes.passes
        exact ⟨t, depth, fun stack hstack => carries_converter hcode
          (structured_truthy hgoes.value) (structured_truthy ht)
          (fun name => ((hpasses stack hstack).encodes name).calm)
          (fun name optional => ((hpasses stack hstack).decodes name optional).calm)⟩

/-- A member that is not optional has a default value. -/
theorem exists_default {e : NamedType} {v : JsValue} (hregular : RegularMember m e v)
    (hundefined : v = .undefined → e.optional = true)
    (hnull : v = .null → m.memberCode e.type = .simple .null)
    (hnested : ∀ r, m.memberCode e.type = .converter r → v ≠ .undefined →
      Goes js m bAddTypes r v) :
    ∃ depth, ∀ stack ≥ depth, e.optional = false →
      ∃ d, defaultValue js m (initEmpty js m stack) e.type = .ok d ∧ (v = .null → d = .null) := by
  cases hcode : m.memberCode e.type with
  | simple type =>
      refine ⟨0, fun stack _ _ => ?_⟩
      simp only [defaultValue, hcode]
      cases type with
      | null => exact ⟨.null, rfl, fun _ => rfl⟩
      | _ => exact ⟨_, rfl, fun h => by have hcode' := hnull h; rw [hcode] at hcode'; cases hcode'⟩
  | systemTime =>
      refine ⟨0, fun stack _ _ => ?_⟩
      simp only [defaultValue, hcode]
      exact ⟨_, rfl, fun h => by have hcode' := hnull h; rw [hcode] at hcode'; cases hcode'⟩
  | converter r =>
      have hnot : v ≠ .null := by
        intro h
        have hcode' := hnull h
        rw [hcode] at hcode'
        cases hcode'
      rw [RegularMember, hcode] at hregular
      by_cases ho : e.optional = false
      · have hv : v ≠ .undefined := fun h => by rw [hundefined h] at ho; cases ho
        rcases hregular.2 ho with hempty | ⟨element, hlist⟩
        · obtain ⟨depth, hdepth⟩ := (hnested r hcode hv).empty hempty
          refine ⟨depth, fun stack hstack _ => ?_⟩
          obtain ⟨d, hd⟩ := hdepth stack hstack
          simp only [defaultValue, hcode]
          cases m.type r with
          | sequenceOf _ => exact ⟨_, rfl, fun h => absurd h hnot⟩
          | _ => exact ⟨d, hd, fun h => absurd h hnot⟩
        · refine ⟨0, fun stack _ _ => ?_⟩
          simp only [defaultValue, hcode, hlist]
          exact ⟨_, rfl, fun h => absurd h hnot⟩
      · exact ⟨0, fun stack _ h => absurd h ho⟩

/-- The alternative of a CHOICE, given what is known of its parts. -/
theorem exists_carries_alternative {e : NamedType} {get : String → JsValue}
    (hplain : plain e.fieldName = true)
    (hsame : get e.name ≠ .undefined → m.choiceDecoderCode e.type = m.memberCode e.type)
    (hsimple : ∀ type, m.memberCode e.type = .simple type → HasSimpleType type (get e.name))
    (htime : m.memberCode e.type = .systemTime → ∃ t, get e.name = .date t)
    (hnested : ∀ r, m.memberCode e.type = .converter r → Goes js m bAddTypes r (get e.name)) :
    ∃ w, w.isUndefined = false ∧
      (if m.memberCode e.type = .simple .null then (get e.name).isNull
        else !(get e.name).isNullish) = true ∧
      ∃ depth, ∀ stack ≥ depth,
        (∀ g : String → JsValue, Calm (encodeMember js (toJSON js m bAddTypes stack)
          (m.memberCode e.type) e (.object get) (.object g))
          (.object (Function.update g e.name w))) ∧
        ∀ s g : String → JsValue, s e.name = w →
          Calm (decodeAlternative m (fromJSON js m stack) e (.object s) (.object g))
            (.object (Function.update g e.name (get e.name))) := by
  cases hcode : m.memberCode e.type with
  | simple type =>
      have hv := hsimple type hcode
      have hdecoder := hsame (by rintro h; rw [h] at hv; cases type <;> exact hv)
      refine ⟨_, written_defined hv, chosen_simple rfl hv, 0, fun stack _ => ⟨fun g => ?_, ?_⟩⟩
      · rw [← hcode]
        exact calm_encodeMember_simple hcode hv g rfl
      · intro s g hs
        refine calm_decodeAlternative hplain hdecoder hs g ?_ (by rw [hcode]; simp) ?_
        · intro type' htype'
          rw [hcode] at htype'
          cases htype'
          exact ⟨hv, rfl⟩
        · intro r hr
          rw [hcode] at hr
          cases hr
  | systemTime =>
      obtain ⟨t, ht⟩ := htime hcode
      have hdecoder := hsame (by rw [ht]; simp)
      rw [hcode] at hdecoder
      exact absurd hdecoder (codeOf_ne_systemTime _ _)
  | converter r =>
      have hgoes := hnested r hcode
      obtain ⟨t, ht, depth, hpasses⟩ := hgoes.passes
      have hdecoder := hsame fun h => by
        have hvalue := hgoes.value
        rw [h] at hvalue
        cases hvalue
      refine ⟨t, isUndefined_of_truthy (structured_truthy ht), chosen_structured rfl hgoes.value,
        depth, fun stack hstack => ⟨fun g => ?_, ?_⟩⟩
      · rw [← hcode]
        exact calm_encodeMember_converter hcode (structured_truthy hgoes.value)
          (structured_truthy ht) (fun name => ((hpasses stack hstack).encodes name).calm) g rfl
      · intro s g hs
        refine calm_decodeAlternative hplain hdecoder hs g ?_ (by rw [hcode]; simp) ?_
        · intro type' htype'
          rw [hcode] at htype'
          cases htype'
        · intro r' hr name optional
          rw [hcode] at hr
          cases hr
          exact ((hpasses stack hstack).decodes name optional).calm

/-- Every value of a type goes through its converters, when it and its parts are regular. -/
theorem goes_of_regular (hjs : js.DatesComeBack) (hm : m.DistinctNames) {n : String}
    {v : JsValue} (h : Typed m (RegularPart m) n v) : Goes js m bAddTypes n v := by
  induction h with
  | @simple n type imported v hdef own _ =>
      have hfalse := own.2
      rw [hdef] at hfalse
      cases v <;> exact absurd hfalse id
  | renamed hdef own _ ih => exact goes_alias hdef own.1 ih
  | @sequence n es get hdef own mandatory simple time nested others ih =>
      have hregular := own.2
      rw [hdef] at hregular
      obtain ⟨hes, htype⟩ := hm n es (.inl hdef)
      have hnull (e : NamedType) (he : e ∈ es) (hv : get e.name = .null) :
          m.memberCode e.type = .simple .null := by
        cases hcode : m.memberCode e.type with
        | simple type =>
            rcases simple e he type hcode with hundefined | htype
            · rw [hundefined] at hv; cases hv
            · rw [hv] at htype
              cases type <;> first | exact absurd htype id | rfl
        | systemTime =>
            rcases time e he hcode with htime | ⟨t, htime⟩ <;> rw [htime] at hv <;> cases hv
        | converter r =>
            have hgoes := ih e he r hcode (by rw [hv]; simp)
            have hvalue := hgoes.value
            rw [hv] at hvalue
            cases hvalue
      refine goes_sequence hdef own.1 hes htype ?_ ?_ ?_ mandatory others
      · intro e he
        exact exists_carries hjs (hregular e he) (mandatory e he) (simple e he) (ih e he)
      · intro e he
        exact exists_default (hregular e he) (mandatory e he) (hnull e he) (ih e he)
      · intro e he hv
        have hmember := hregular e he
        rw [RegularMember, hnull e he hv] at hmember
        by_contra ho
        rw [hmember (by simpa using ho)] at hv
        cases hv
  | @choice n es get e hdef own he simple time nested others ih =>
      have hregular := own.2
      rw [hdef] at hregular
      obtain ⟨hes, htype⟩ := hm n es (.inr hdef)
      have hsame : get e.name ≠ .undefined →
          m.choiceDecoderCode e.type = m.memberCode e.type := hregular e he
      obtain ⟨w, hw, hchosen, hcarries⟩ := exists_carries_alternative
        (plain_of_converterOf hdef own.1 e he) hsame simple time ih
      exact goes_choice hdef own.1 hes htype he hchosen hw hcarries others
  | @sequenceOf n element vs hdef own simple nested ih =>
      have hregular := own.2
      rw [hdef] at hregular
      refine goes_sequenceOf hdef own.1 (fun v hv => ?_) hregular
      cases hcode : m.elementEncoderCode element with
      | simple type => exact ⟨v, 0, fun _ _ => ⟨simple type hcode v hv, rfl⟩⟩
      | systemTime => exact absurd hcode (codeOf_ne_systemTime _ _)
      | converter r =>
          have hgoes := ih r hcode v hv
          obtain ⟨t, ht, depth, hpasses⟩ := hgoes.passes
          exact ⟨t, depth, fun stack hstack => ⟨structured_truthy hgoes.value,
            structured_truthy ht, fun name => ((hpasses stack hstack).encodes name).calm,
            fun name => ((hpasses stack hstack).decodes name false).calm⟩⟩

end Values

/-! ### A sample -/

section Sample

/-- A time is written as it is for the time 0, and as a number of strokes for any other. -/
def sampleRuntime : Runtime where
  toISOString time :=
    if time = 0 then "1970-01-01T00:00:00.000Z"
    else String.ofList ((if 0 ≤ time then '+' else '-') :: List.replicate time.natAbs '1')
  newDate text :=
    if text = "1970-01-01T00:00:00.000Z" then some 0
    else match text.toList with
      | '+' :: strokes => some strokes.length
      | '-' :: strokes => some (-strokes.length)
      | _ => none
  parse _ := none
  now := 0

theorem sampleRuntime_datesComeBack : sampleRuntime.DatesComeBack := by
  intro time _
  simp only [sampleRuntime]
  by_cases hzero : time = 0
  · rw [if_pos hzero, hzero]
    exact ⟨rfl, by decide⟩
  · rw [if_neg hzero]
    have htext (c : Char) (hc : c = '+' ∨ c = '-') (strokes : List Char) :
        String.ofList (c :: strokes) ≠ "1970-01-01T00:00:00.000Z" := by
      intro h
      have hlist := congrArg String.toList h
      rw [String.toList_ofList] at hlist
      have hhead := (List.cons.inj (hlist.trans (by rfl :
        "1970-01-01T00:00:00.000Z".toList = '1' :: "970-01-01T00:00:00.000Z".toList))).1
      rcases hc with rfl | rfl <;> exact absurd hhead (by decide)
    have hne (strokes : List Char) (c : Char) : String.ofList (c :: strokes) ≠ "" := by
      intro h
      have hlist := congrArg String.toList h
      rw [String.toList_ofList] at hlist
      cases hlist
    by_cases hsign : 0 ≤ time
    · rw [if_pos hsign, if_neg (htext _ (.inl rfl) _), String.toList_ofList]
      refine ⟨?_, hne _ _⟩
      simp [List.length_replicate, abs_of_nonneg hsign]
    · rw [if_neg hsign, if_neg (htext _ (.inr rfl) _), String.toList_ofList]
      refine ⟨?_, hne _ _⟩
      simp [List.length_replicate, abs_of_neg (not_le.1 hsign)]

/-- A packet with a time and data, a choice between a time and a number, and a list of data. -/
def sample : Definitions where
  type n :=
    if n = "AsnSystemTime" then .alias (.simple .real) false
    else if n = "Packet" then .sequence [⟨"at", .ref "AsnSystemTime", false⟩,
      ⟨"data", .simple .octetString, true⟩, ⟨"stamp", .ref "Stamp", true⟩]
    else if n = "Stamp" then .choice [⟨"time", .ref "AsnSystemTime", false⟩,
      ⟨"number", .simple .integer, false⟩]
    else .sequenceOf (.simple .octetString)
  resolved n := if n = "AsnSystemTime" then some .real else none
  root n :=
    if n = "AsnSystemTime" then some .real
    else if n = "Packet" then none
    else if n = "Stamp" then none
    else some .octetString
  resolved_eq n := by split_ifs <;> rfl
  root_eq n := by split_ifs <;> rfl
  systemTime := rfl

theorem sample_distinctNames : sample.DistinctNames := by
  intro n es h
  simp only [sample] at h
  split_ifs at h
  · rcases h with h | h <;> cases h
  · rcases h with h | h <;> cases h
    decide
  · rcases h with h | h <;> cases h
    decide
  · rcases h with h | h <;> cases h

/-- A choice with one alternative. -/
def stamp (alternative : String) (value : JsValue) : JsValue :=
  .object fun name => if name = alternative then value else .undefined

/-- A packet with all its members. -/
def packet (data stamp : JsValue) : JsValue :=
  .object fun name =>
    if name = "at" then .date (some 0)
    else if name = "data" then data
    else if name = "stamp" then stamp
    else .undefined

/-- A stamp is a value of its type, with what it is asked for. -/
theorem typed_stamp {S : String → JsValue → Prop} {alternative : String} {type : Ty}
    {value : JsValue}
    (hmem : ⟨alternative, type, false⟩ ∈ ([⟨"time", .ref "AsnSystemTime", false⟩,
      ⟨"number", .simple .integer, false⟩] : List NamedType))
    (hname : fixName alternative = alternative) (own : S "Stamp" (stamp alternative value))
    (simple : ∀ k, sample.memberCode type = .simple k → HasSimpleType k value)
    (time : sample.memberCode type = .systemTime → ∃ t, value = .date t)
    (hcode : ∀ r, sample.memberCode type ≠ .converter r) :
    Typed sample S "Stamp" (stamp alternative value) := by
  refine .choice rfl own hmem ?_ ?_ (fun r hr => absurd hr (hcode r)) ?_
  all_goals simp only [NamedType.name, hname, if_true]
  · exact simple
  · exact time
  · exact fun name hne => if_neg fun h => hne h.symm

/-- A packet is a value of its type, when its members are. -/
theorem typed_packet {S : String → JsValue → Prop} {data stamp : JsValue}
    (own : S "Packet" (packet data stamp))
    (hdata : data = .undefined ∨ HasSimpleType .octetString data)
    (hstamp : stamp ≠ .undefined → Typed sample S "Stamp" stamp) :
    Typed sample S "Packet" (packet data stamp) := by
  refine .sequence rfl own ?_ ?_ ?_ ?_ ?_
  · intro e he h
    rcases List.mem_cons.1 he with rfl | he
    · cases h
    rcases List.mem_cons.1 he with rfl | he
    · rfl
    · rw [List.mem_singleton.1 he]
  · intro e he type h
    rcases List.mem_cons.1 he with rfl | he
    · cases h
    rcases List.mem_cons.1 he with rfl | he
    · cases h
      exact hdata
    · rw [List.mem_singleton.1 he] at h
      cases h
  · intro e he h
    rcases List.mem_cons.1 he with rfl | he
    · exact .inr ⟨some 0, rfl⟩
    rcases List.mem_cons.1 he with rfl | he
    · cases h
    · rw [List.mem_singleton.1 he] at h
      cases h
  · intro e he r h hthere
    rcases List.mem_cons.1 he with rfl | he
    · cases h
    rcases List.mem_cons.1 he with rfl | he
    · cases h
    · obtain rfl := List.mem_singleton.1 he
      cases h
      exact hstamp hthere
  · intro name h
    have hname (e : NamedType) (he : e ∈ _) : name ≠ e.name := fun hsame => h e he hsame.symm
    rw [if_neg (show ¬name = "at" from hname ⟨"at", _, _⟩ (.head _)),
      if_neg (show ¬name = "data" from hname ⟨"data", _, _⟩ (.tail _ (.head _))),
      if_neg (show ¬name = "stamp" from hname ⟨"stamp", _, _⟩ (.tail _ (.tail _ (.head _))))]

/-- One run in which something else comes back is enough. -/
theorem not_roundTrips_of_run {n : String} {v : JsValue}
    (h : ∀ stack, ∃ t c₁ r c₂,
      (toJSON sampleRuntime sample false (stack + 2) n none v).run ⟨[], 0, "", []⟩ = .ok (t, c₁) ∧
        (fromJSON sampleRuntime sample (stack + 2) n none false t).run ⟨[], 0, "", []⟩ =
          .ok (r, c₂) ∧ r ≠ v) : ¬RoundTrips sampleRuntime sample false n v := by
  rintro ⟨depth, hall⟩
  obtain ⟨t, c₁, r, c₂, hencode, hdecode, hne⟩ := h depth
  obtain ⟨t', c₁', c₂', hencode', hdecode'⟩ := hall (depth + 2) (Nat.le_add_right _ _) none none
    false ⟨[], 0, "", []⟩ ⟨[], 0, "", []⟩
  obtain ⟨rfl, -⟩ := Prod.mk.inj (Except.ok.inj (hencode.symm.trans hencode'))
  exact hne (Prod.mk.inj (Except.ok.inj (hdecode.symm.trans hdecode'))).1

end Sample

end Converter

end Esnacc.Ts
