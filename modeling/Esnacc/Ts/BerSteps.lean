import Esnacc.Ts.JsonSteps

/-!
The steps of the BER converters, told from their input.
-/

namespace Esnacc.Ts

open MarkedLog

namespace Converter

variable {Block : Type} (asn1 : Asn1ts Block) (m : Definitions)
  (explicit : NamedType → Bool) (elementType : String → BerType)

/-! ### toBER -/

section Encoder

variable (nested : String → Bool → JsValue → List Step)

def validatePropertySteps (e : NamedType) (s : JsValue) : List Step :=
  let name := fixName e.fieldName
  match m.memberCode e.type with
  | .simple .null => []
  | .simple type => faultIf (paramFault s name type.jsonType e.optional)
  | .systemTime => faultIf (paramFault s name .date e.optional)
  | .converter className => nested className e.optional (s.member name)

def encodeBerChoiceSteps (s : JsValue) : List NamedType → List Step
  | [] => [.fault]
  | e :: es =>
      let name := fixName e.fieldName
      match m.memberCode e.type with
      | .converter className =>
          if (s.member name).truthy then nested className false (s.member name)
          else encodeBerChoiceSteps s es
      | code =>
          let expectedType := match code with
            | .simple type => type.jsonType
            | _ => .date
          faultIf (paramFault s name expectedType true) ++
            if paramPasses s name expectedType then [] else encodeBerChoiceSteps s es

def encodeBerElementSteps (code : Code) (se : JsValue) : List Step :=
  match code with
  | .simple type => typeSteps se type.jsonType false
  | .systemTime => []
  | .converter className => nested className false se

/-- An element that is not left out in silence. -/
def keepsBer (code : Code) : Bool :=
  match code with
  | .systemTime => false
  | _ => true

def encodeBerBodySteps (optional : Bool) (s : JsValue) : TypeDef → List Step
  | .alias (.simple _) _ => []
  | .alias (.ref className) _ => nested className optional s
  | .sequence es => es.flatMap fun e => validatePropertySteps m nested e s
  | .choice es => encodeBerChoiceSteps m nested s es
  | .sequenceOf element =>
      s.elements.flatMap (encodeBerElementSteps nested (m.elementEncoderCode element))

end Encoder

/-- The steps of `toBER`. -/
def encodeBerSteps : ℕ → String → Bool → JsValue → List Step
  | 0, _, _, _ => [.fault]
  | stack + 1, typeName, optional, s =>
      if s.truthy then .enter :: encodeBerBodySteps m (encodeBerSteps stack) optional s
        (m.type typeName)
      else faultIf !optional

section Follow

variable {asn1 m explicit} {nested : String → String → Bool → JsValue → Converter Ber}
  {steps : String → Bool → JsValue → List Step}

theorem follows_addMissingError (name : String) (optional : Bool) :
    Follows (addMissingError name optional) (faultIf !optional) fun _ => True :=
  follows_unlessOptional optional (follows_get.then fun _ _ => follows_push _)

variable (hnested : ∀ className name optional s, Follows (nested className name optional s)
  (steps className optional s)
  fun t => Quiet (steps className optional s) →
    t.isUndefined = !s.truthy ∧ (optional = false → t.isUndefined = false))

include hnested

theorem follows_validateProperty (e : NamedType) (s : JsValue) :
    Follows (validateProperty m nested e s) (validatePropertySteps m steps e s)
      fun _ => True := by
  simp only [validateProperty, validatePropertySteps]
  cases m.memberCode e.type with
  | simple type =>
      cases type with
      | null => exact .pure trivial
      | _ => exact (follows_validateParam _ _ _ _).last fun _ _ => .pure trivial
  | systemTime => exact (follows_validateParam _ _ _ _).last fun _ _ => .pure trivial
  | converter className =>
      refine (Follows.lift fun _ h => JsValue.member_of_property h).then fun value hvalue => ?_
      rw [hvalue]
      exact (hnested _ _ _ _).mono fun _ _ => trivial

theorem follows_validateProperties (s : JsValue) (es : List NamedType) :
    Follows (validateProperties m nested s es)
      (es.flatMap fun e => validatePropertySteps m steps e s) fun _ => True := by
  induction es with
  | nil => exact .pure trivial
  | cons e es ih =>
      exact (follows_validateProperty hnested e s).bind fun _ _ => ih.last fun _ _ =>
        .pure trivial

theorem follows_encodeBerChoice (s : JsValue) (es : List NamedType) :
    Follows (encodeBerChoice m nested s es) (encodeBerChoiceSteps m steps s es)
      fun t => Quiet (encodeBerChoiceSteps m steps s es) → t.isUndefined = false := by
  induction es with
  | nil =>
      exact (follows_pushHere _ _).last fun _ _ => .pure fun h => absurd h (not_quiet_fault _)
  | cons e es ih =>
      -- a missing alternative is no error, one of another type is, and the next one is tried
      have hsimple (expectedType : ExpectedType) (type : BerType) :
          Follows (validateParam s (fixName e.fieldName) expectedType true >>= fun ok =>
            if ok = true then (liftM (s.property (fixName e.fieldName)) : Converter JsValue) >>=
              fun value => pure (.primitive type (fixName e.fieldName) value)
            else encodeBerChoice m nested s es)
            (faultIf (paramFault s (fixName e.fieldName) expectedType true) ++
              if paramPasses s (fixName e.fieldName) expectedType then []
              else encodeBerChoiceSteps m steps s es)
            fun t => Quiet (faultIf (paramFault s (fixName e.fieldName) expectedType true) ++
              if paramPasses s (fixName e.fieldName) expectedType then []
              else encodeBerChoiceSteps m steps s es) → t.isUndefined = false := by
        refine (follows_validateParam _ _ _ _).bind fun ok hok => ?_
        rw [← hok]
        cases ok with
        | true => exact (Follows.lift fun _ _ => trivial).then fun _ _ => .pure fun _ => rfl
        | false => exact ih.mono fun t ht hquiet => ht (quiet_append.1 hquiet).2
      rw [encodeBerChoice, encodeBerChoiceSteps]
      cases m.memberCode e.type with
      | simple type => exact hsimple _ _
      | systemTime => exact hsimple _ _
      | converter className =>
          refine (Follows.lift fun _ h => JsValue.member_of_property h).then fun value hvalue => ?_
          rw [hvalue]
          cases htruthy : value.truthy with
          | true =>
              exact (hnested _ _ _ _).mono fun t ht hquiet => (ht hquiet).2 rfl
          | false => exact ih

/-- Where nothing is recorded, every element is in the list that is not left out in silence. -/
theorem follows_encodeBerElements (typeName : String) (code : Code) (vs : List JsValue)
    (t : List Ber) :
    Follows (encodeBerElements nested typeName code vs t)
      (vs.flatMap (encodeBerElementSteps steps code)) fun l =>
        Quiet (vs.flatMap (encodeBerElementSteps steps code)) →
          l.length = t.length + (vs.filter fun _ => keepsBer code).length := by
  induction vs generalizing t with
  | nil => exact .pure fun _ => rfl
  | cons se rest ih =>
      rw [List.flatMap_cons]
      cases code with
      | simple type =>
          simp only [encodeBerElements, encodeBerElementSteps]
          refine (follows_validateParamType _ _ _ _).bind fun ok hok => ?_
          cases ok with
          | true =>
              refine (ih _).mono fun l hl hquiet => ?_
              exact length_of_kept rfl (hl (quiet_append.1 hquiet).2)
          | false =>
              refine (ih t).mono fun l _ hquiet => ?_
              exact absurd (hok.2 (quiet_append.1 hquiet).1) (by decide)
      | systemTime =>
          refine (ih t).mono fun l hl hquiet => ?_
          exact length_of_dropped rfl (hl hquiet)
      | converter className =>
          simp only [encodeBerElements, encodeBerElementSteps]
          refine (hnested _ _ _ _).bind fun val hval => ?_
          refine (ih _).mono fun l hl hquiet => ?_
          have hdefined : val.isUndefined = false := (hval (quiet_append.1 hquiet).1).2 rfl
          have hlength := hl (quiet_append.1 hquiet).2
          rw [if_neg (by rw [hdefined]; decide)] at hlength
          exact length_of_kept rfl hlength

/-- What is made of a value: something, and of a list one element for each that is kept. -/
def EncodedBerFrom (m : Definitions) (type : TypeDef) (s : JsValue) (t : Ber) : Prop :=
  t.isUndefined = false ∧ match type with
    | .sequenceOf element => ∃ name ts, t = .sequence name ts ∧
        ts.length = (s.elements.filter fun _ => keepsBer (m.elementEncoderCode element)).length
    | _ => True

theorem follows_encodeBerBody (name : String) (optional : Bool) (s : JsValue) (typeName : String)
    (type : TypeDef) :
    Follows (encodeBerBody asn1 m explicit nested name optional s typeName type)
      (encodeBerBodySteps m steps optional s type)
      fun t => Quiet (encodeBerBodySteps m steps optional s type) → EncodedBerFrom m type s t := by
  cases type with
  | «alias» type imported =>
      cases type with
      | simple type => exact .throw _
      | ref className =>
          simp only [encodeBerBody]
          exact (hnested _ _ _ _).last fun v _ => follows_hasNewErrors.then fun _ _ =>
            .pure fun _ => ⟨rfl, trivial⟩
  | sequence es =>
      refine (follows_validateProperties hnested s es).last fun made _ => ?_
      refine follows_hasNewErrors.then fun failed _ => ?_
      split
      · exact .pure fun _ => ⟨rfl, trivial⟩
      · exact (Follows.lift fun _ _ => trivial).then fun _ _ => .pure fun _ => ⟨rfl, trivial⟩
  | choice es =>
      exact (follows_encodeBerChoice hnested s es).mono fun t ht hquiet => ⟨ht hquiet, trivial⟩
  | sequenceOf element =>
      refine (Follows.lift fun _ h => JsValue.elements_of_iterate h).then fun vs hvs => ?_
      rw [encodeBerBodySteps, hvs]
      refine (follows_encodeBerElements hnested typeName _ vs []).last fun ts hts => .pure ?_
      intro hquiet
      have hlength := hts hquiet
      rw [List.length_nil, Nat.zero_add] at hlength
      exact ⟨rfl, name, ts, rfl, by rw [hvs]; exact hlength⟩

omit hnested

/-- A value that is not there is an error unless it is optional. -/
theorem follows_toBER_falsy {stack : ℕ} {typeName name : String} {optional : Bool} {s : JsValue}
    (hs : s.truthy = false) :
    Follows (toBER asn1 m explicit (stack + 1) typeName name optional s) (faultIf !optional)
      fun t => t = .undefined := by
  refine (Follows.lift (P := fun _ => True) fun _ _ => trivial).then fun _ _ => ?_
  simp only [hs, Bool.not_false, if_true]
  exact (follows_addMissingError _ _).last fun _ _ => .pure rfl

theorem toBER_falsy {stack : ℕ} {typeName name : String} {optional : Bool} {s : JsValue}
    {c c' : ConverterErrors} {t : Ber} (hs : s.truthy = false)
    (hrun : (toBER asn1 m explicit (stack + 1) typeName name optional s).run c = .ok (t, c')) :
    t = .undefined := by
  rw [toBER] at hrun
  simp only [hs, Bool.not_false, if_true] at hrun
  cases hconverter : converterOf m typeName with
  | error e =>
      rw [hconverter] at hrun
      cases hrun
  | ok u =>
      rw [hconverter] at hrun
      cases optional <;> exact (Prod.mk.inj (Except.ok.inj hrun)).1.symm

theorem calls_toBER_succ {stack : ℕ} (hnested : ∀ className name optional s,
      Follows (toBER asn1 m explicit stack className name optional s)
        (encodeBerSteps m stack className optional s)
        fun t => Quiet (encodeBerSteps m stack className optional s) →
          t.isUndefined = !s.truthy ∧ (optional = false → t.isUndefined = false))
    {typeName name : String} {optional : Bool} {s : JsValue} (hs : s.truthy = true) :
    Calls (toBER asn1 m explicit (stack + 1) typeName name optional s)
      (encodeBerSteps m (stack + 1) typeName optional s) fun t =>
      Loud (encodeBerSteps m (stack + 1) typeName optional s) ∧ t = .undefined ∨
        ¬Loud (encodeBerSteps m (stack + 1) typeName optional s) ∧
          (Quiet (encodeBerSteps m (stack + 1) typeName optional s) →
            EncodedBerFrom m (m.type typeName) s t) := by
  rw [encodeBerSteps, if_pos hs]
  refine Calls.lift_then ?_
  simp only [hs, Bool.not_true, Bool.false_eq_true, if_false]
  refine (calls_of_follows (follows_encodeBerBody hnested
    (if name = "" then typeName else name) optional s typeName (m.type typeName))).mono
    fun t ht => ?_
  rw [loud_cons_enter, quiet_cons_enter]
  exact ht

theorem follows_toBER (asn1 : Asn1ts Block) (m : Definitions) (explicit : NamedType → Bool)
    (stack : ℕ) (typeName name : String) (optional : Bool) (s : JsValue) :
    Follows (toBER asn1 m explicit stack typeName name optional s)
      (encodeBerSteps m stack typeName optional s)
      fun t => Quiet (encodeBerSteps m stack typeName optional s) →
        t.isUndefined = !s.truthy ∧ (optional = false → t.isUndefined = false) := by
  induction stack generalizing typeName name optional s with
  | zero =>
      intro c t c' _ hrun
      cases hrun
  | succ stack ih =>
      cases hs : s.truthy with
      | false =>
          rw [encodeBerSteps, if_neg (by rw [hs]; decide)]
          refine (follows_toBER_falsy hs).mono fun t ht hquiet => ⟨by rw [ht]; rfl, fun h => ?_⟩
          rw [quiet_faultIf, h] at hquiet
          cases hquiet
      | true =>
          refine (calls_toBER_succ ih hs).follows.mono fun t ht hquiet => ?_
          have hdefined := (result_of_quiet ht hquiet hquiet).1
          exact ⟨hdefined, fun _ => hdefined⟩

end Follow

/-! ### fromBER -/

section Decoder

/-- The block that is decoded. -/
def preparedBer (typeName : String) (data : BerData Block) : Option Block :=
  match data with
  | .undefined => none
  | .octets octets => (asn1.verify typeName octets).toOption
  | .block block => some block

def prepareBerSteps (typeName : String) (data : BerData Block) (optional : Bool) : List Step :=
  match data with
  | .undefined => faultIf !optional
  | .octets octets => faultIf (asn1.verify typeName octets).toOption.isNone
  | .block _ => []

def fillASN1Steps (s : Block) (propertyName : String) (type : BerType)
    (optional constructed : Bool) : List Step :=
  let there := !constructed || (asn1.getTypedValueByName .sequence s propertyName).isSome
  if there && type = .octetString then [.fault]
  else if (asn1Value asn1 s propertyName type constructed).isUndefined then faultIf !optional
  else []

variable (nested : String → Bool → BerData Block → List Step)

/-- The block of a member with a converter. -/
def memberBlock (className : String) (s : Block) (name : String) : Option Block :=
  if m.blockType className = .choice then asn1.getValueByName s name
  else asn1.getTypedValueByName .sequence s name

def decodeBerMemberSteps (e : NamedType) (s : Block) : List Step :=
  let name := fixName e.fieldName
  match m.memberCode e.type with
  | .simple type => fillASN1Steps asn1 s name type.berType e.optional (explicit e)
  | .systemTime => fillASN1Steps asn1 s name .asnSystemTime e.optional (explicit e)
  | .converter className =>
      nested className e.optional (blockData (memberBlock asn1 m className s name))

/-- What goes wrong in a structured alternative is lost. -/
def decodeBerAlternativeSteps (e : NamedType) (s : Block) : List Step :=
  match Definitions.codeOf (m.resolvedOf e.type) e.type with
  | .simple type => typeSteps (asn1.getValue s) type.jsonType e.optional
  | .systemTime => []
  | .converter className => apart (nested className e.optional (.block s))

def decodeBerChoiceSteps (optional : Bool) (s : Block) : List NamedType → List Step
  | [] => faultIf !optional
  | e :: es =>
      if asn1.choiceName s = e.fieldName && asn1.typeGuard (alternativeType m e) s then
        decodeBerAlternativeSteps asn1 m nested e s
      else decodeBerChoiceSteps optional s es

def decodeBerElementSteps (code : Code) (optional : Bool) (se : Block) : List Step :=
  match code with
  | .simple type =>
      if asn1.typeGuard type.berType se then typeSteps (asn1.getValue se) type.jsonType false
      else [.fault]
  | .systemTime => []
  | .converter className =>
      if asn1.typeGuard (elementType className) se then nested className optional (.block se)
      else [.fault]

/-- An element is kept of which the nested call makes something. -/
def keepsBerDecoded (comes : String → Block → Bool) (code : Code) (se : Block) : Bool :=
  match code with
  | .simple _ => true
  | .systemTime => false
  | .converter className => comes className se

def decodeBerBodySteps (optional : Bool) (s : Block) : TypeDef → List Step
  | .alias (.simple _) _ => []
  | .alias (.ref className) _ => nested className optional (.block s)
  | .sequence es => es.flatMap fun e => decodeBerMemberSteps asn1 m explicit nested e s
  | .choice es => decodeBerChoiceSteps asn1 m nested optional s es
  | .sequenceOf element => (asn1.value s).flatMap
      (decodeBerElementSteps asn1 elementType nested (m.elementDecoderCode element) optional)

def decodeBlockSteps (typeName : String) (optional : Bool) (s : Option Block) : List Step :=
  match s with
  | some s =>
      if isStructure asn1 m typeName s then
        decodeBerBodySteps asn1 m explicit elementType nested optional s (m.type typeName)
      else []
  | none => []

/-- `fromBER` makes something of a block, if it makes no error. -/
def comesBer : ℕ → String → Block → Bool
  | 0, _, _ => false
  | stack + 1, typeName, s =>
      isStructure asn1 m typeName s && match m.type typeName with
        | .alias (.ref className) imported => !imported && comesBer stack className s
        | _ => true

/-- The steps of `fromBER`. -/
def decodeBerSteps : ℕ → String → Bool → BerData Block → List Step
  | 0, _, _, _ => [.fault]
  | stack + 1, typeName, optional, data =>
      .enter :: (prepareBerSteps asn1 typeName data optional ++
        decodeBlockSteps asn1 m explicit elementType (decodeBerSteps stack) typeName optional
          (preparedBer asn1 typeName data))

end Decoder

section Follow

variable {asn1 m explicit elementType} {js : Runtime}
  {nested : String → Option String → Bool → BerData Block → Converter JsValue}
  {steps : String → Bool → BerData Block → List Step} {made : String → Block → Bool}

theorem follows_prepareASN1BERData (typeName : String) (data : BerData Block) (optional : Bool) :
    Follows (prepareASN1BERData asn1 typeName data optional)
      (prepareBerSteps asn1 typeName data optional)
      fun s => s = preparedBer asn1 typeName data := by
  cases data with
  | undefined =>
      exact (follows_unlessOptional optional (follows_pushHere _ _)).last fun _ _ => .pure rfl
  | octets octets =>
      simp only [prepareASN1BERData, prepareBerSteps, preparedBer]
      cases asn1.verify typeName octets with
      | ok block => exact .pure rfl
      | error message => exact (follows_pushHere _ _).last fun _ _ => .pure rfl
  | block block => exact .pure rfl

theorem follows_fillASN1Param (s : Block) {target : JsValue} (ht : target.truthy = true)
    (propertyName : String) (type : BerType) (optional constructed : Bool) :
    Follows (fillASN1Param asn1 s target propertyName type optional constructed)
      (fillASN1Steps asn1 s propertyName type optional constructed)
      fun t => t.truthy = true := by
  simp only [fillASN1Param, fillASN1Steps]
  split
  · exact (follows_pushAt _ _ _).last fun _ _ => .pure ht
  · split
    · refine (follows_unlessOptional optional ?_).last fun _ _ => .pure ht
      split
      · exact follows_pushAt _ _ _
      · exact follows_pushAt _ _ _
    · exact .pure (JsValue.truthy_set ht _ _)

variable (hnested : ∀ className name optional block,
  Follows (nested className name optional (.block block))
    (steps className optional (.block block))
    fun t => Quiet (steps className optional (.block block)) → t.truthy = made className block)

include hnested

theorem follows_decodeBerAlternative (e : NamedType) (s : Block) {t : JsValue}
    (ht : t.truthy = true) : Follows (decodeBerAlternative asn1 m nested e s t)
      (decodeBerAlternativeSteps asn1 m steps e s) fun t => t.truthy = true := by
  simp only [decodeBerAlternative, decodeBerAlternativeSteps]
  cases Definitions.codeOf (m.resolvedOf e.type) e.type with
  | simple type =>
      refine (follows_validateParamType _ _ _ _).last fun ok _ => ?_
      split
      · exact .pure (JsValue.truthy_set ht _ _)
      · exact .pure ht
  | systemTime => exact .pure ht
  | converter className =>
      exact (follows_withOwnErrors (hnested _ _ _ _)).last fun _ _ =>
        .pure (JsValue.truthy_set ht _ _)

theorem follows_decodeBerChoice (optional : Bool) (s : Block) (es : List NamedType) {t : JsValue}
    (ht : t.truthy = true) : Follows (decodeBerChoice asn1 m nested optional s t es)
      (decodeBerChoiceSteps asn1 m steps optional s es) fun t => t.truthy = true := by
  induction es with
  | nil => exact (follows_unlessOptional optional (follows_pushHere _ _)).last fun _ _ => .pure ht
  | cons e es ih =>
      rw [decodeBerChoice, decodeBerChoiceSteps]
      split
      · exact follows_decodeBerAlternative hnested e s ht
      · exact ih

/-- Where nothing is recorded, every element is in the list of which something comes. -/
theorem follows_decodeBerElements (typeName : String) (code : Code) (optional : Bool)
    (blocks : List Block) (t : List JsValue) :
    Follows (decodeBerElements asn1 elementType nested typeName code optional blocks t)
      (blocks.flatMap (decodeBerElementSteps asn1 elementType steps code optional)) fun l =>
        Quiet (blocks.flatMap (decodeBerElementSteps asn1 elementType steps code optional)) →
          l.length = t.length + (blocks.filter (keepsBerDecoded made code)).length := by
  induction blocks generalizing t with
  | nil => exact .pure fun _ => rfl
  | cons se rest ih =>
      rw [List.flatMap_cons]
      -- a block of another type is an error, so nothing has to be shown of the list
      have hwrong : Follows (pushHere .propertyTypeMismatch "wrong type" >>= fun _ =>
          decodeBerElements asn1 elementType nested typeName code optional rest t)
          ([.fault] ++ rest.flatMap (decodeBerElementSteps asn1 elementType steps code optional))
          fun l => Quiet ([.fault] ++
            rest.flatMap (decodeBerElementSteps asn1 elementType steps code optional)) →
            l.length = t.length + ((se :: rest).filter (keepsBerDecoded made code)).length :=
        (follows_pushHere _ _).bind fun _ _ => (ih t).mono fun l _ hquiet =>
          absurd hquiet (not_quiet_fault _)
      cases code with
      | simple type =>
          simp only [decodeBerElements, decodeBerElementSteps]
          cases asn1.typeGuard type.berType se with
          | false => exact hwrong
          | true =>
              simp only [if_true]
              split
              · exact .throw _
              · refine (follows_validateParamType _ _ _ _).bind fun ok hok => ?_
                cases ok with
                | true =>
                    refine (ih _).mono fun l hl hquiet => ?_
                    exact length_of_kept rfl (hl (quiet_append.1 hquiet).2)
                | false =>
                    refine (ih t).mono fun l _ hquiet => ?_
                    exact absurd (hok.2 (quiet_append.1 hquiet).1) (by decide)
      | systemTime =>
          refine (ih t).mono fun l hl hquiet => ?_
          exact length_of_dropped rfl (hl hquiet)
      | converter className =>
          simp only [decodeBerElements, decodeBerElementSteps]
          cases asn1.typeGuard (elementType className) se with
          | false => exact hwrong
          | true =>
              simp only [if_true]
              refine (hnested _ _ _ _).bind fun val hval => ?_
              refine (ih _).mono fun l hl hquiet => ?_
              have hlength := hl (quiet_append.1 hquiet).2
              rw [hval (quiet_append.1 hquiet).1] at hlength
              cases hmade : made className se with
              | true =>
                  rw [hmade, if_pos rfl] at hlength
                  exact length_of_kept hmade hlength
              | false =>
                  rw [hmade, if_neg (by decide)] at hlength
                  exact length_of_dropped hmade hlength

variable (hmissing : ∀ className name optional,
  Follows (nested className name optional .undefined) (steps className optional .undefined)
    fun _ => True)

include hmissing

theorem follows_decodeBerMember (e : NamedType) (s : Block) {t : JsValue}
    (ht : t.truthy = true) : Follows (decodeBerMember asn1 m explicit nested e s t)
      (decodeBerMemberSteps asn1 m explicit steps e s) fun t => t.truthy = true := by
  simp only [decodeBerMember, decodeBerMemberSteps]
  cases m.memberCode e.type with
  | simple type => exact follows_fillASN1Param s ht _ _ _ _
  | systemTime => exact follows_fillASN1Param s ht _ _ _ _
  | converter className =>
      have hset (x : JsValue) : Follows
          (pure (if (e.optional || x.truthy) = true then t.set (fixName e.fieldName) x else t))
          [] fun t => t.truthy = true := by
        split
        · exact .pure (JsValue.truthy_set ht _ _)
        · exact .pure ht
      simp only [memberBlock]
      cases (if m.blockType className = .choice then
        asn1.getValueByName s (fixName e.fieldName)
        else asn1.getTypedValueByName .sequence s (fixName e.fieldName)) with
      | none => exact (hmissing _ _ _).last fun x _ => hset x
      | some block => exact (hnested _ _ _ _).last fun x _ => hset x

theorem follows_decodeBerSequence (s : Block) (es : List NamedType) {t : JsValue}
    (ht : t.truthy = true) : Follows (decodeBerSequence asn1 m explicit nested s es t)
      (es.flatMap fun e => decodeBerMemberSteps asn1 m explicit steps e s)
      fun t => t.truthy = true := by
  induction es generalizing t with
  | nil => exact .pure ht
  | cons e es ih =>
      exact (follows_decodeBerMember hnested hmissing e s ht).bind fun _ ht' => ih ht'

/-- What is made of a block: something or nothing, and of a list one element for each that is
kept. -/
def DecodedBerFrom (asn1 : Asn1ts Block) (m : Definitions) (made : String → Block → Bool)
    (type : TypeDef) (s : Block) (t : JsValue) : Prop :=
  (t.truthy = match type with
    | .alias (.ref className) imported => !imported && made className s
    | _ => true) ∧ match type with
    | .sequenceOf element => ∃ ts, t = .array ts ∧ ts.length =
        ((asn1.value s).filter (keepsBerDecoded made (m.elementDecoderCode element))).length
    | _ => True

theorem follows_decodeBerBody {empty : Except JsException JsValue}
    (hempty : ∀ d, empty = .ok d → d.truthy = true) (typeName : String) (name : Option String)
    (optional : Bool) (s : Block) (type : TypeDef) :
    Follows (decodeBerBody asn1 m explicit elementType nested empty typeName name optional s type)
      (decodeBerBodySteps asn1 m explicit elementType steps optional s type)
      fun t => Quiet (decodeBerBodySteps asn1 m explicit elementType steps optional s type) →
        DecodedBerFrom asn1 m made type s t := by
  cases type with
  | «alias» type imported =>
      cases type with
      | simple type => exact .throw _
      | ref className =>
          refine (hnested _ _ _ _).last fun t ht => .pure fun hquiet => ⟨?_, trivial⟩
          cases imported with
          | true => rfl
          | false => exact ht hquiet
  | sequence es =>
      refine (Follows.lift hempty).then fun d hd => ?_
      exact (follows_decodeBerSequence hnested hmissing s es hd).mono fun t ht _ => ⟨ht, trivial⟩
  | choice es =>
      refine (Follows.lift hempty).then fun d hd => ?_
      exact (follows_decodeBerChoice hnested optional s es hd).mono fun t ht _ => ⟨ht, trivial⟩
  | sequenceOf element =>
      refine (follows_decodeBerElements hnested typeName _ optional (asn1.value s) []).last
        fun ts hts => .pure ?_
      intro hquiet
      have hlength := hts hquiet
      rw [List.length_nil, Nat.zero_add] at hlength
      exact ⟨rfl, ts, rfl, hlength⟩

omit hnested hmissing

/-- What is made of the block, or without one. -/
def BerResult (asn1 : Asn1ts Block) (m : Definitions) (stack : ℕ) (typeName : String)
    (s : Option Block) (t : JsValue) : Prop :=
  match s with
  | some s => t.truthy = comesBer asn1 m stack typeName s ∧
      if isStructure asn1 m typeName s then
        DecodedBerFrom asn1 m (comesBer asn1 m (stack - 1)) (m.type typeName) s t
      else t = .undefined
  | none => t = .undefined

/-- What a call of `fromBER` does, from any state of the list. -/
theorem calls_fromBER (asn1 : Asn1ts Block) (m : Definitions) (explicit : NamedType → Bool)
    (elementType : String → BerType) (js : Runtime) (stack : ℕ) (typeName : String)
    (name : Option String) (optional : Bool) (data : BerData Block) :
    Calls (fromBER asn1 m explicit elementType js stack typeName name optional data)
      (decodeBerSteps asn1 m explicit elementType stack typeName optional data) fun t =>
      Loud (decodeBerSteps asn1 m explicit elementType stack typeName optional data) ∧
          t = .undefined ∨
        ¬Loud (decodeBerSteps asn1 m explicit elementType stack typeName optional data) ∧
          (Quiet (decodeBerSteps asn1 m explicit elementType stack typeName optional data) →
            BerResult asn1 m stack typeName (preparedBer asn1 typeName data) t) := by
  induction stack generalizing typeName name optional data with
  | zero =>
      intro c t c' hrun
      cases hrun
  | succ stack ih =>
      -- members are decoded from blocks, which may be missing; the rest always has one
      let nested := fromBER asn1 m explicit elementType js stack
      let steps := decodeBerSteps asn1 m explicit elementType stack
      have hnested (className : String) (name : Option String) (optional : Bool) (s : Block) :
          Follows (nested className name optional (.block s)) (steps className optional (.block s))
            fun t => Quiet (steps className optional (.block s)) →
              t.truthy = comesBer asn1 m stack className s := by
        refine (ih className name optional (.block s)).follows.mono fun t ht hquiet => ?_
        exact (result_of_quiet ht hquiet hquiet).1
      have hmissing (className : String) (name : Option String) (optional : Bool) :
          Follows (nested className name optional .undefined)
            (steps className optional .undefined) fun _ => True :=
        (ih className name optional .undefined).follows.mono fun _ _ => trivial
      have hblock (s : Option Block) : s = preparedBer asn1 typeName data → Follows
          (match s with
          | some s =>
              if isStructure asn1 m typeName s then
                decodeBerBody asn1 m explicit elementType nested (initEmpty js m stack typeName)
                  typeName name optional s (m.type typeName)
              else pure .undefined
          | none => pure .undefined : Converter JsValue)
          (decodeBlockSteps asn1 m explicit elementType steps typeName optional
            (preparedBer asn1 typeName data))
          fun t => Quiet (decodeBlockSteps asn1 m explicit elementType steps typeName optional
            (preparedBer asn1 typeName data)) →
            BerResult asn1 m (stack + 1) typeName (preparedBer asn1 typeName data) t := by
        intro hs
        rw [← hs]
        cases s with
        | none => exact .pure fun _ => rfl
        | some s =>
            simp only [decodeBlockSteps, BerResult, comesBer]
            cases isStructure asn1 m typeName s with
            | false => exact .pure fun _ => ⟨rfl, rfl⟩
            | true =>
                refine (follows_decodeBerBody hnested hmissing (fun _ h => truthy_initEmpty h)
                  typeName name optional s (m.type typeName)).mono fun t ht hquiet => ?_
                exact ⟨(ht hquiet).1, ht hquiet⟩
      have hprepare := @follows_prepareASN1BERData Block asn1 typeName data optional
      have hbody := hprepare.bind
        (R := fun t => Quiet (prepareBerSteps asn1 typeName data optional ++
          decodeBlockSteps asn1 m explicit elementType steps typeName optional
            (preparedBer asn1 typeName data)) →
          BerResult asn1 m (stack + 1) typeName (preparedBer asn1 typeName data) t)
        fun s hs => (hblock s hs).mono fun t ht hquiet => ht (quiet_append.1 hquiet).2
      have hcalls := @calls_of_follows _ _ _ _ .undefined false typeName name hbody
      simp only [bind_assoc] at hcalls
      refine Calls.lift_then (hcalls.mono fun t ht => ?_)
      rw [decodeBerSteps, loud_cons_enter, quiet_cons_enter]
      exact ht

end Follow

end Converter

end Esnacc.Ts
