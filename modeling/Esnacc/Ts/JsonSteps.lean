import Esnacc.Ts.ConverterSteps

/-!
The steps of the JSON converters, told from their input, and what a call that records nothing
makes of a list.
-/

namespace Esnacc.Ts

open MarkedLog

namespace Converter

open JsValue

variable (js : Runtime) (m : Definitions)

/-! ### toJSON -/

section Encoder

variable (nested : String → JsValue → List Step)

def encodeMemberSteps (code : Code) (e : NamedType) (s : JsValue) : List Step :=
  let name := fixName e.fieldName
  match code with
  | .simple type => faultIf (paramFault s name type.jsonType e.optional)
  | .systemTime => faultIf (paramFault s name .date e.optional)
  | .converter className =>
      if e.optional && !(s.member name).truthy then [] else nested className (s.member name)

def encodeChoiceSteps (s : JsValue) : List NamedType → List Step
  | [] => [.fault]
  | e :: es =>
      let value := s.member e.fieldName
      let chosen := if m.memberCode e.type = .simple .null then value.isNull else !value.isNullish
      if chosen then encodeMemberSteps nested (m.memberCode e.type) e s
      else encodeChoiceSteps s es

def encodeElementSteps (code : Code) (se : JsValue) : List Step :=
  match code with
  | .simple type => typeSteps se type.jsonType false
  | .systemTime => []
  | .converter className => if se.isUndefined then [] else nested className se

/-- An element that is not left out in silence. -/
def keeps (code : Code) (se : JsValue) : Bool :=
  match code with
  | .simple _ => true
  | .systemTime => false
  | .converter _ => !se.isUndefined

def encodeBodySteps (s : JsValue) : TypeDef → List Step
  | .alias (.simple _) _ => []
  | .alias (.ref className) _ => nested className s
  | .sequence es => es.flatMap fun e => encodeMemberSteps nested (m.memberCode e.type) e s
  | .choice es => encodeChoiceSteps m nested s es
  | .sequenceOf element =>
      s.elements.flatMap (encodeElementSteps nested (m.elementEncoderCode element))

end Encoder

/-- The steps of `toJSON`. -/
def encodeSteps : ℕ → String → JsValue → List Step
  | 0, _, _ => [.fault]
  | stack + 1, typeName, s =>
      .enter :: encodeBodySteps m (encodeSteps stack) s (m.type typeName)

section Follow

variable {js m} {nested : String → Option String → JsValue → Converter JsValue}
  {steps : String → JsValue → List Step}

theorem follows_fillJSONParam (data : JsValue) {target : JsValue} (ht : target.truthy = true)
    (propertyName : String) (expectedType : ExpectedType) (optional : Bool) :
    Follows (fillJSONParam js data target propertyName expectedType optional)
      (faultIf (paramFault data propertyName expectedType optional))
      fun t => t.truthy = true := by
  refine (follows_validateParam _ _ _ _).last fun ok _ => ?_
  cases ok with
  | true => exact (Follows.lift fun _ _ => trivial).then fun _ _ =>
      (Follows.lift fun _ _ => trivial).then fun _ _ => .pure (truthy_set ht _ _)
  | false => exact .pure ht

variable (hnested : ∀ className name s, Follows (nested className name s) (steps className s)
  fun t => Quiet (steps className s) → t.truthy = true)

include hnested

theorem follows_encodeMember (code : Code) (e : NamedType) (s : JsValue) {t : JsValue}
    (ht : t.truthy = true) : Follows (encodeMember js nested code e s t)
      (encodeMemberSteps steps code e s) fun t => t.truthy = true := by
  cases code with
  | simple type => exact follows_fillJSONParam s ht _ _ _
  | systemTime => exact follows_fillJSONParam s ht _ _ _
  | converter className =>
      simp only [encodeMember, encodeMemberSteps]
      refine (Follows.lift fun _ h => JsValue.member_of_property h).then fun value hvalue => ?_
      rw [hvalue]
      split
      · exact .pure ht
      · refine (hnested _ _ _).last fun x _ => .pure ?_
        split
        · exact truthy_set ht _ _
        · exact ht

theorem follows_encodeSequence (s : JsValue) (es : List NamedType) {t : JsValue}
    (ht : t.truthy = true) : Follows (encodeSequence js m nested s es t)
      (es.flatMap fun e => encodeMemberSteps steps (m.memberCode e.type) e s)
      fun t => t.truthy = true := by
  induction es generalizing t with
  | nil => exact .pure ht
  | cons e es ih => exact (follows_encodeMember hnested _ e s ht).bind fun _ ht' => ih ht'

theorem follows_encodeChoice (s : JsValue) (es : List NamedType) {t : JsValue}
    (ht : t.truthy = true) : Follows (encodeChoice js m nested s t es)
      (encodeChoiceSteps m steps s es) fun t => t.truthy = true := by
  induction es with
  | nil => exact (follows_pushHere _ _).last fun _ _ => .pure ht
  | cons e es ih =>
      rw [encodeChoice, encodeChoiceSteps]
      refine (Follows.lift fun _ h => JsValue.member_of_property h).then fun value hvalue => ?_
      rw [hvalue]
      simp only
      generalize (if m.memberCode e.type = .simple .null then value.isNull
        else !value.isNullish) = chosen
      cases chosen with
      | true => exact follows_encodeMember hnested _ e s ht
      | false => exact ih

/-- Where nothing is recorded, every element is in the list that is not left out in silence. -/
theorem follows_encodeElements (typeName : String) (code : Code) (vs t : List JsValue) :
    Follows (encodeElements nested typeName code vs t)
      (vs.flatMap (encodeElementSteps steps code)) fun l =>
        Quiet (vs.flatMap (encodeElementSteps steps code)) →
          l.length = t.length + (vs.filter (keeps code)).length := by
  induction vs generalizing t with
  | nil => exact .pure fun _ => rfl
  | cons se rest ih =>
      rw [List.flatMap_cons]
      cases code with
      | simple type =>
          simp only [encodeElements, encodeElementSteps]
          refine (follows_validateParamType _ _ _ _).bind fun ok hok => ?_
          cases ok with
          | true =>
              refine (ih (t ++ [se])).mono fun l hl hquiet => ?_
              exact length_of_kept rfl (hl (quiet_append.1 hquiet).2)
          | false =>
              refine (ih t).mono fun l _ hquiet => ?_
              exact absurd (hok.2 (quiet_append.1 hquiet).1) (by decide)
      | systemTime =>
          refine (ih t).mono fun l hl hquiet => ?_
          exact length_of_dropped rfl (hl hquiet)
      | converter className =>
          simp only [encodeElements, encodeElementSteps]
          cases hse : se.isUndefined with
          -- the loop goes on, with no error
          | true =>
              refine (ih t).mono fun l hl hquiet => ?_
              exact length_of_dropped (by rw [keeps, hse]; rfl) (hl hquiet)
          | false =>
              refine (hnested _ _ _).bind fun val hval => ?_
              refine (ih _).mono fun l hl hquiet => ?_
              have hlength := hl (quiet_append.1 hquiet).2
              rw [if_pos (hval (quiet_append.1 hquiet).1)] at hlength
              exact length_of_kept (by rw [keeps, hse]; rfl) hlength

/-- What is made of a value: something, and of a list one element for each that is kept. -/
def EncodedFrom (m : Definitions) (type : TypeDef) (s t : JsValue) : Prop :=
  t.truthy = true ∧ match type with
    | .sequenceOf element => ∃ ts, t = .array ts ∧
        ts.length = (s.elements.filter (keeps (m.elementEncoderCode element))).length
    | _ => True

theorem follows_encodeBody (bAddTypes : Bool) (typeName : String) (name : Option String)
    (s : JsValue) (type : TypeDef) :
    Follows (encodeBody js m bAddTypes nested typeName name s type)
      (encodeBodySteps m steps s type)
      fun t => Quiet (encodeBodySteps m steps s type) → EncodedFrom m type s t := by
  cases type with
  | «alias» type imported =>
      cases type with
      | simple type => exact .throw _
      | ref className => exact (hnested _ _ _).mono fun t ht hquiet => ⟨ht hquiet, trivial⟩
  | sequence es =>
      exact (follows_encodeSequence hnested s es rfl).mono fun t ht _ => ⟨ht, trivial⟩
  | choice es =>
      exact (follows_encodeChoice hnested s es rfl).mono fun t ht _ => ⟨ht, trivial⟩
  | sequenceOf element =>
      refine (Follows.lift fun _ h => JsValue.elements_of_iterate h).then fun vs hvs => ?_
      rw [encodeBodySteps, hvs]
      refine (follows_encodeElements hnested typeName _ vs []).last fun ts hts => .pure ?_
      intro hquiet
      have hlength := hts hquiet
      rw [List.length_nil, Nat.zero_add] at hlength
      exact ⟨rfl, ts, rfl, by rw [hvs]; exact hlength⟩

omit hnested

/-- What a call of `toJSON` does, from any state of the list. -/
theorem calls_toJSON (js : Runtime) (m : Definitions) (bAddTypes : Bool) (stack : ℕ)
    (typeName : String) (name : Option String) (s : JsValue) :
    Calls (toJSON js m bAddTypes stack typeName name s) (encodeSteps m stack typeName s) fun t =>
      Loud (encodeSteps m stack typeName s) ∧ t = .undefined ∨
        ¬Loud (encodeSteps m stack typeName s) ∧
          (Quiet (encodeSteps m stack typeName s) → EncodedFrom m (m.type typeName) s t) := by
  induction stack generalizing typeName name s with
  | zero =>
      intro c t c' hrun
      cases hrun
  | succ stack ih =>
      have hnested (className : String) (name : Option String) (s : JsValue) :
          Follows (toJSON js m bAddTypes stack className name s) (encodeSteps m stack className s)
            fun t => Quiet (encodeSteps m stack className s) → t.truthy = true := by
        refine (ih className name s).follows.mono fun t ht hquiet => ?_
        exact (result_of_quiet ht hquiet hquiet).1
      refine Calls.lift_then ((calls_of_follows (follows_encodeBody hnested bAddTypes typeName name
        s (m.type typeName))).mono fun t ht => ?_)
      rw [encodeSteps, loud_cons_enter, quiet_cons_enter]
      exact ht

end Follow

/-! ### fromJSON -/

section Decoder

/-- The object that is decoded, `undefined` where there is none. -/
def prepared (data : JsValue) : JsValue :=
  match data with
  | .undefined | .null => .undefined
  | .string text =>
      (js.parse (if text.startsWith "[" then ((text.drop 1).dropEnd 1).toString
        else text)).getD .undefined
  | data => data

def prepareSteps (data : JsValue) (optional : Bool) : List Step :=
  match data with
  | .undefined | .null => faultIf !optional
  | .string text =>
      faultIf (js.parse (if text.startsWith "[" then ((text.drop 1).dropEnd 1).toString
        else text)).isNone
  | _ => []

variable (nested : String → Bool → JsValue → List Step)

def decodeMemberSteps (e : NamedType) (s : JsValue) : List Step :=
  let name := fixName e.fieldName
  match m.memberCode e.type with
  | .simple .null => []
  | .simple .octetString | .systemTime => faultIf (paramFault s name .string e.optional)
  | .simple type => faultIf (paramFault s name type.jsonType e.optional)
  | .converter className => nested className e.optional (s.member name)

def decodeAlternativeSteps (e : NamedType) (s : JsValue) : List Step :=
  match m.choiceDecoderCode e.type with
  | .simple .octetString => faultIf (paramFault s e.fieldName .string false)
  | .simple type => faultIf (paramFault s e.fieldName type.jsonType false)
  | .systemTime => []
  | .converter className => nested className e.optional (s.member e.fieldName)

def decodeChoiceSteps (optional : Bool) (s : JsValue) : List NamedType → List Step
  | [] => faultIf !optional
  | e :: es =>
      if (s.member e.fieldName).isUndefined then decodeChoiceSteps optional s es
      else decodeAlternativeSteps m nested e s

def decodeElementSteps (code : Code) (se : JsValue) : List Step :=
  match code with
  | .simple .octetString => typeSteps se (.flag (se matches .bytes _)) false
  | .simple type => typeSteps se type.jsonType false
  | .systemTime => []
  | .converter className => if se.isUndefined then [] else nested className false se

/-- An element is kept of which the nested call makes something. -/
def keepsDecoded (comes : String → JsValue → Bool) (code : Code) (se : JsValue) : Bool :=
  match code with
  | .simple _ => true
  | .systemTime => false
  | .converter className => !se.isUndefined && comes className se

def decodeBodySteps (optional : Bool) (s : JsValue) : TypeDef → List Step
  | .alias (.simple _) _ => []
  | .alias (.ref className) _ => nested className optional s
  | .sequence es => es.flatMap fun e => decodeMemberSteps m nested e s
  | .choice es => decodeChoiceSteps m nested optional s es
  | .sequenceOf element =>
      s.elements.flatMap (decodeElementSteps nested (m.elementDecoderCode element))

end Decoder

/-- The steps of `fromJSON`. -/
def decodeSteps : ℕ → String → Bool → JsValue → List Step
  | 0, _, _, _ => [.fault]
  | stack + 1, typeName, optional, data =>
      .enter :: (prepareSteps js data optional ++
        if (prepared js data).truthy then
          decodeBodySteps m (decodeSteps stack) optional (prepared js data) (m.type typeName)
        else [])

/-- `fromJSON` makes something of the data, if it makes no error. -/
def comes : ℕ → String → JsValue → Bool
  | 0, _, _ => false
  | stack + 1, typeName, data =>
      (prepared js data).truthy && match m.type typeName with
        | .alias (.ref className) _ => comes stack className (prepared js data)
        | _ => true

section Follow

variable {js m} {nested : String → Option String → Bool → JsValue → Converter JsValue}
  {steps : String → Bool → JsValue → List Step} {made : String → JsValue → Bool}

theorem follows_prepareJSONData (data : JsValue) (optional : Bool) :
    Follows (prepareJSONData js data optional) (prepareSteps js data optional)
      fun s => s = prepared js data := by
  have hmissing := (follows_unlessOptional optional
    (follows_pushHere .propertyMissing "property missing")).last
      (f := fun _ => pure JsValue.undefined) (R := fun s => s = .undefined)
      fun _ _ => .pure rfl
  cases data with
  | undefined => exact hmissing
  | null => exact hmissing
  | string text =>
      simp only [prepareJSONData, prepareSteps, prepared]
      cases js.parse (if text.startsWith "[" then ((text.drop 1).dropEnd 1).toString
        else text) with
      | some result => exact .pure rfl
      | none => exact (follows_pushHere _ _).last fun _ _ => .pure rfl
  | _ => exact .pure rfl

theorem truthy_emptyMembers {init : String → Except JsException JsValue} {es : List NamedType}
    {t d : JsValue} (ht : t.truthy = true) (h : emptyMembers js m init es t = .ok d) :
    d.truthy = true := by
  induction es generalizing t with
  | nil => exact Except.ok.inj h ▸ ht
  | cons e es ih =>
      rw [emptyMembers] at h
      split at h
      · exact ih ht h
      · cases hvalue : defaultValue js m init e.type with
        | error _ => rw [hvalue] at h; cases h
        | ok value =>
            rw [hvalue] at h
            exact ih (truthy_set ht _ _) h

theorem truthy_initEmpty {stack : ℕ} {n : String} {d : JsValue}
    (h : initEmpty js m stack n = .ok d) : d.truthy = true := by
  induction stack generalizing n with
  | zero => cases h
  | succ stack ih =>
      rw [initEmpty] at h
      split at h
      · exact truthy_emptyMembers rfl h
      · exact Except.ok.inj h ▸ rfl
      · exact ih h
      · cases h
      · cases h
      · cases h

theorem follows_decodeText (e : NamedType) (convert : JsValue → Except JsException JsValue)
    (s : JsValue) {t : JsValue} (ht : t.truthy = true) :
    Follows (decodeText e convert s t)
      (faultIf (paramFault s (fixName e.fieldName) .string e.optional))
      fun t => t.truthy = true := by
  refine (follows_validateParam _ _ _ _).last fun ok _ => ?_
  cases ok with
  | false => exact .pure ht
  | true =>
      simp only [if_true]
      split
      · exact .throw _
      · refine (Follows.lift fun _ _ => trivial).then fun value _ => ?_
        split
        · exact .pure ht
        · exact (Follows.lift fun _ _ => trivial).then fun _ _ => .pure (truthy_set ht _ _)

variable (hnested : ∀ className name optional s, Follows (nested className name optional s)
  (steps className optional s)
  fun t => Quiet (steps className optional s) → t.truthy = made className s)

include hnested

theorem follows_decodeMember (e : NamedType) (s : JsValue) {t : JsValue}
    (ht : t.truthy = true) : Follows (decodeMember js m nested e s t)
      (decodeMemberSteps m steps e s) fun t => t.truthy = true := by
  simp only [decodeMember, decodeMemberSteps]
  cases m.memberCode e.type with
  | simple type =>
      cases type with
      | null => exact .pure ht
      | octetString => exact follows_decodeText e _ s ht
      | _ => exact follows_fillJSONParam s ht _ _ _
  | systemTime => exact follows_decodeText e _ s ht
  | converter className =>
      refine (Follows.lift fun _ h => JsValue.member_of_property h).then fun value hvalue => ?_
      rw [hvalue]
      refine (hnested _ _ _ _).last fun x _ => .pure ?_
      split
      · exact truthy_set ht _ _
      · exact ht

theorem follows_decodeSequence (s : JsValue) (es : List NamedType) {t : JsValue}
    (ht : t.truthy = true) : Follows (decodeSequence js m nested s es t)
      (es.flatMap fun e => decodeMemberSteps m steps e s) fun t => t.truthy = true := by
  induction es generalizing t with
  | nil => exact .pure ht
  | cons e es ih => exact (follows_decodeMember hnested e s ht).bind fun _ ht' => ih ht'

theorem follows_decodeAlternative (e : NamedType) (s : JsValue) {t : JsValue}
    (ht : t.truthy = true) : Follows (decodeAlternative m nested e s t)
      (decodeAlternativeSteps m steps e s) fun t => t.truthy = true := by
  have hplain (expectedType : ExpectedType) (convert : JsValue → Converter JsValue)
      (hconvert : ∀ v, Follows (convert v) [] fun _ => True) :
      Follows (validateParam s e.fieldName expectedType false >>= fun ok =>
        if ok = true then (liftM (s.property e.fieldName) : Converter JsValue) >>= fun v =>
          convert v >>= fun v => pure (t.set e.fieldName v) else pure t)
        (faultIf (paramFault s e.fieldName expectedType false)) fun t => t.truthy = true := by
    refine (follows_validateParam _ _ _ _).last fun ok _ => ?_
    cases ok with
    | false => exact .pure ht
    | true =>
        exact (Follows.lift fun _ _ => trivial).then fun _ _ => (hconvert _).then fun _ _ =>
          .pure (truthy_set ht _ _)
  have hsame (expectedType : ExpectedType) := hplain expectedType pure fun _ => .pure trivial
  simp only [pure_bind] at hsame
  simp only [decodeAlternative, decodeAlternativeSteps]
  cases m.choiceDecoderCode e.type with
  | simple type =>
      cases type with
      | octetString =>
          exact hplain _ (fun v => liftM (fromText v)) fun _ => .lift fun _ _ => trivial
      | _ => exact hsame _
  | systemTime => exact .pure ht
  | converter className =>
      refine (Follows.lift fun _ h => JsValue.member_of_property h).then fun value hvalue => ?_
      rw [hvalue]
      exact (hnested _ _ _ _).last fun x _ => .pure (truthy_set ht _ _)

theorem follows_decodeChoice (optional : Bool) (s : JsValue) (es : List NamedType) {t : JsValue}
    (ht : t.truthy = true) : Follows (decodeChoice m nested optional s t es)
      (decodeChoiceSteps m steps optional s es) fun t => t.truthy = true := by
  induction es with
  | nil => exact (follows_unlessOptional optional (follows_pushHere _ _)).last fun _ _ => .pure ht
  | cons e es ih =>
      rw [decodeChoice, decodeChoiceSteps]
      refine (Follows.lift fun _ h => JsValue.member_of_property h).then fun value hvalue => ?_
      rw [hvalue]
      cases value.isUndefined with
      | true => exact ih
      | false => exact follows_decodeAlternative hnested e s ht

/-- Where nothing is recorded, every element is in the list of which something comes. -/
theorem follows_decodeElements (typeName : String) (code : Code) (vs t : List JsValue) :
    Follows (decodeElements nested typeName code vs t)
      (vs.flatMap (decodeElementSteps steps code)) fun l =>
        Quiet (vs.flatMap (decodeElementSteps steps code)) →
          l.length = t.length + (vs.filter (keepsDecoded made code)).length := by
  induction vs generalizing t with
  | nil => exact .pure fun _ => rfl
  | cons se rest ih =>
      rw [List.flatMap_cons]
      have hsimple (type : SimpleType) (expectedType : ExpectedType)
          (hcode : code = .simple type) :
          Follows (validateParamType se typeName expectedType false >>= fun ok =>
            if ok = true then decodeElements nested typeName code rest (t ++ [se])
            else decodeElements nested typeName code rest t)
            (typeSteps se expectedType false ++ rest.flatMap (decodeElementSteps steps code))
            fun l => Quiet (typeSteps se expectedType false ++
              rest.flatMap (decodeElementSteps steps code)) →
              l.length = t.length + ((se :: rest).filter (keepsDecoded made code)).length := by
        refine (follows_validateParamType _ _ _ _).bind fun ok hok => ?_
        cases ok with
        | true =>
            refine (ih (t ++ [se])).mono fun l hl hquiet => ?_
            exact length_of_kept (by rw [hcode]; rfl) (hl (quiet_append.1 hquiet).2)
        | false =>
            refine (ih t).mono fun l _ hquiet => ?_
            exact absurd (hok.2 (quiet_append.1 hquiet).1) (by decide)
      cases code with
      | simple type =>
          cases type with
          | octetString => exact hsimple _ _ rfl
          | _ => exact hsimple _ _ rfl
      | systemTime =>
          refine (ih t).mono fun l hl hquiet => ?_
          exact length_of_dropped rfl (hl hquiet)
      | converter className =>
          simp only [decodeElements, decodeElementSteps]
          cases hse : se.isUndefined with
          | true =>
              refine (ih t).mono fun l hl hquiet => ?_
              exact length_of_dropped (by rw [keepsDecoded, hse]; rfl) (hl hquiet)
          | false =>
              refine (hnested _ _ _ _).bind fun val hval => ?_
              refine (ih _).mono fun l hl hquiet => ?_
              have hlength := hl (quiet_append.1 hquiet).2
              rw [hval (quiet_append.1 hquiet).1] at hlength
              cases hmade : made className se with
              | true =>
                  rw [hmade, if_pos rfl] at hlength
                  exact length_of_kept (by rw [keepsDecoded, hse, hmade]; rfl) hlength
              | false =>
                  rw [hmade, if_neg (by decide)] at hlength
                  exact length_of_dropped (by rw [keepsDecoded, hse, hmade]; rfl) hlength

/-- What is made of data: something or nothing, and of a list one element for each that is kept. -/
def DecodedFrom (m : Definitions) (made : String → JsValue → Bool) (type : TypeDef)
    (s t : JsValue) : Prop :=
  (t.truthy = match type with
    | .alias (.ref className) _ => made className s
    | _ => true) ∧ match type with
    | .sequenceOf element => ∃ ts, t = .array ts ∧
        ts.length = (s.elements.filter (keepsDecoded made (m.elementDecoderCode element))).length
    | _ => True

theorem follows_decodeBody {empty : Except JsException JsValue}
    (hempty : ∀ d, empty = .ok d → d.truthy = true) (typeName : String) (name : Option String)
    (optional : Bool) (s : JsValue) (type : TypeDef) :
    Follows (decodeBody js m nested empty typeName name optional s type)
      (decodeBodySteps m steps optional s type)
      fun t => Quiet (decodeBodySteps m steps optional s type) → DecodedFrom m made type s t := by
  cases type with
  | «alias» type imported =>
      cases type with
      | simple type => exact .throw _
      | ref className => exact (hnested _ _ _ _).mono fun t ht hquiet => ⟨ht hquiet, trivial⟩
  | sequence es =>
      refine (Follows.lift hempty).then fun d hd => ?_
      exact (follows_decodeSequence hnested s es hd).mono fun t ht _ => ⟨ht, trivial⟩
  | choice es =>
      refine (Follows.lift hempty).then fun d hd => ?_
      exact (follows_decodeChoice hnested optional s es hd).mono fun t ht _ => ⟨ht, trivial⟩
  | sequenceOf element =>
      refine (Follows.lift fun _ h => JsValue.elements_of_iterate h).then fun vs hvs => ?_
      rw [decodeBodySteps, hvs]
      refine (follows_decodeElements hnested typeName _ vs []).last fun ts hts => .pure ?_
      intro hquiet
      have hlength := hts hquiet
      rw [List.length_nil, Nat.zero_add] at hlength
      exact ⟨rfl, ts, rfl, by rw [hvs]; exact hlength⟩

omit hnested

/-- What a call of `fromJSON` does, from any state of the list. -/
theorem calls_fromJSON (js : Runtime) (m : Definitions) (stack : ℕ) (typeName : String)
    (name : Option String) (optional : Bool) (data : JsValue) :
    Calls (fromJSON js m stack typeName name optional data)
      (decodeSteps js m stack typeName optional data) fun t =>
      Loud (decodeSteps js m stack typeName optional data) ∧ t = .undefined ∨
        ¬Loud (decodeSteps js m stack typeName optional data) ∧
          (Quiet (decodeSteps js m stack typeName optional data) →
            t.truthy = comes js m stack typeName data ∧
            if (prepared js data).truthy then DecodedFrom m (comes js m (stack - 1))
              (m.type typeName) (prepared js data) t else t = .undefined) := by
  induction stack generalizing typeName name optional data with
  | zero =>
      intro c t c' hrun
      cases hrun
  | succ stack ih =>
      have hnested (className : String) (name : Option String) (optional : Bool) (s : JsValue) :
          Follows (fromJSON js m stack className name optional s)
            (decodeSteps js m stack className optional s)
            fun t => Quiet (decodeSteps js m stack className optional s) →
              t.truthy = comes js m stack className s := by
        refine (ih className name optional s).follows.mono fun t ht hquiet => ?_
        exact (result_of_quiet ht hquiet hquiet).1
      -- what lies between the stored state and the result that is validated
      have hbody : Follows (prepareJSONData js data optional >>= fun s =>
          if s.truthy then decodeBody js m (fromJSON js m stack) (initEmpty js m stack typeName)
            typeName name optional s (m.type typeName) else pure .undefined)
          (prepareSteps js data optional ++ if (prepared js data).truthy then
            decodeBodySteps m (decodeSteps js m stack) optional (prepared js data)
              (m.type typeName) else [])
          fun t => Quiet (prepareSteps js data optional ++ if (prepared js data).truthy then
            decodeBodySteps m (decodeSteps js m stack) optional (prepared js data)
              (m.type typeName) else []) → t.truthy = comes js m (stack + 1) typeName data ∧
            if (prepared js data).truthy then DecodedFrom m (comes js m stack)
              (m.type typeName) (prepared js data) t else t = .undefined := by
        refine (follows_prepareJSONData data optional).bind fun s hs => ?_
        rw [hs, comes]
        cases htruthy : (prepared js data).truthy with
        | false => exact .pure fun _ => ⟨rfl, rfl⟩
        | true =>
            refine (follows_decodeBody hnested (fun _ h => truthy_initEmpty h) typeName name
              optional (prepared js data) (m.type typeName)).mono fun t ht hquiet => ?_
            have hdecoded := ht (quiet_append.1 hquiet).2
            exact ⟨hdecoded.1, hdecoded⟩
      have hcalls := @calls_of_follows _ _ _ _ .undefined false typeName name hbody
      simp only [bind_assoc] at hcalls
      refine Calls.lift_then (hcalls.mono fun t ht => ?_)
      rw [decodeSteps, loud_cons_enter, quiet_cons_enter]
      exact ht

end Follow

end Converter

end Esnacc.Ts
