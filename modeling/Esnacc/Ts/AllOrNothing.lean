import Esnacc.Ts.BerSteps
import Esnacc.Ts.JsonRoundTrip

/-!
Whether a conversion is all or nothing: a value comes back only where no error has been recorded,
no mandatory member is missing and no element is left out of a list.

The mark is what decides. A call whose last error is recorded before another converter is entered
returns its value all the same; so does one whose errors go to another list.
-/

namespace Esnacc.Ts

open MarkedLog

namespace Converter

/-- No error between two states, and nothing missing. -/
def AllOrNothing (c c' : ConverterErrors) (whole : Prop) : Prop := Unrecorded c c' ∧ whole

/-- The mandatory members of a SEQUENCE are there, and a list has as many elements as it was made
of. -/
def Whole (type : TypeDef) (there : NamedType → Bool) (length : ℕ) (made : Option ℕ) : Prop :=
  match type with
  | .sequence es => ∀ e ∈ es, e.optional = false → there e = true
  | .sequenceOf _ => made = some length
  | _ => True

/-- What is asked of a member that no check asks for, and of an element. -/
def Complete {α : Type} (type : TypeDef) (unchecked : NamedType → Bool)
    (there : NamedType → Bool) (elements : List α) (kept : Ty → α → Bool) : Prop :=
  match type with
  | .sequence es => ∀ e ∈ es, e.optional = false → unchecked e = true → there e = true
  | .sequenceOf element => ∀ v ∈ elements, kept element v = true
  | _ => True

/-- Where nothing is recorded, checked members are there, and a list has the elements that are
kept. -/
theorem whole_iff_complete {α : Type} {type : TypeDef} {unchecked there : NamedType → Bool}
    {elements : List α} {kept : Ty → α → Bool} {made : Option ℕ}
    (hchecked : ∀ es, type = .sequence es → ∀ e ∈ es, e.optional = false →
      unchecked e = false → there e = true)
    (hlist : ∀ element, type = .sequenceOf element →
      made = some (elements.filter (kept element)).length) :
    Whole type there elements.length made ↔ Complete type unchecked there elements kept := by
  cases type with
  | «alias» type imported => exact Iff.rfl
  | sequence es =>
      constructor
      · exact fun h e he hoptional _ => h e he hoptional
      · intro h e he hoptional
        cases hunchecked : unchecked e with
        | true => exact h e he hoptional hunchecked
        | false => exact hchecked es rfl e he hoptional hunchecked
  | choice es => exact Iff.rfl
  | sequenceOf element =>
      simp only [Whole, Complete, hlist element rfl, Option.some.injEq,
        List.length_filter_eq_length_iff]

/-- The elements of an array, `none` for another value. -/
def arrayLength : JsValue → Option ℕ
  | .array ts => some ts.length
  | _ => none

def berLength : Ber → Option ℕ
  | .sequence _ ts => some ts.length
  | _ => none

/-- The member is there. -/
def jsonThere (s : JsValue) (e : NamedType) : Bool := !(s.member (fixName e.fieldName)).isUndefined

theorem jsonThere_of_quiet {s : JsValue} {e : NamedType} {expectedType : ExpectedType}
    (hoptional : e.optional = false)
    (h : Quiet (faultIf (paramFault s (fixName e.fieldName) expectedType e.optional))) :
    jsonThere s e = true := by
  rw [hoptional, quiet_faultIf] at h
  rw [jsonThere, member_of_not_paramFault h]
  rfl

/-! ### toJSON -/

section Encoder

variable (m : Definitions)

/-- A missing member is passed on to its converter. -/
def encodeUnchecked (e : NamedType) : Bool := m.memberCode e.type matches .converter _

theorem there_of_quiet_encode {nested : String → JsValue → List Step} {e : NamedType} {s : JsValue}
    (hoptional : e.optional = false) (hunchecked : encodeUnchecked m e = false)
    (hquiet : Quiet (encodeMemberSteps nested (m.memberCode e.type) e s)) :
    jsonThere s e = true := by
  rw [encodeUnchecked] at hunchecked
  cases hcode : m.memberCode e.type with
  | converter className =>
      rw [hcode] at hunchecked
      cases hunchecked
  | _ =>
      rw [hcode] at hquiet
      exact jsonThere_of_quiet hoptional hquiet

/-- The condition on a value for `toJSON`. -/
def EncodesSoundly (stack : ℕ) (typeName : String) (s : JsValue) : Prop :=
  Sound (encodeSteps m stack typeName s)
    (Complete (m.type typeName) (encodeUnchecked m) (jsonThere s) s.elements
      fun element => keeps (m.elementEncoderCode element))

theorem toJSON_allOrNothing_iff (js : Runtime) (bAddTypes : Bool) {stack : ℕ} {typeName : String}
    {name : Option String} {s t : JsValue} {c c' : ConverterErrors}
    (hrun : (toJSON js m bAddTypes stack typeName name s).run c = .ok (t, c'))
    (ht : t.isUndefined = false) :
    AllOrNothing c c' (Whole (m.type typeName) (jsonThere s) s.elements.length (arrayLength t)) ↔
      EncodesSoundly m stack typeName s := by
  obtain ⟨htracks, hresult⟩ := calls_toJSON js m bAddTypes stack typeName name s c t c' hrun
  refine unrecorded_and_iff htracks ht (fun hloud hdefined => ?_) fun hquiet => ?_
  · rw [result_of_loud hresult hloud] at hdefined
    cases hdefined
  · have hfrom := result_of_quiet hresult hquiet
    refine whole_iff_complete (fun es hes e he hoptional hunchecked => ?_)
      fun element helement => ?_
    · cases stack with
      | zero => cases hrun
      | succ stack =>
          rw [encodeSteps, quiet_cons_enter, hes, encodeBodySteps] at hquiet
          have hmember := quiet_of_mem_flatMap he hquiet
          exact there_of_quiet_encode m hoptional hunchecked hmember
    · have hlength := (hfrom hquiet).2
      rw [helement] at hlength
      obtain ⟨ts, rfl, hts⟩ := hlength
      exact congrArg some hts

end Encoder

/-! ### fromJSON -/

section Decoder

variable (js : Runtime) (m : Definitions)

/-- Nothing is asked of a member that is NULL. -/
def decodeUnchecked (e : NamedType) : Bool := m.memberCode e.type = .simple .null

theorem not_quiet_decodeSteps_undefined (stack : ℕ) (typeName : String) :
    ¬Quiet (decodeSteps js m stack typeName false .undefined) := by
  cases stack with
  | zero => exact not_quiet_fault _
  | succ stack =>
      rw [decodeSteps, quiet_cons_enter]
      exact not_quiet_fault _

theorem there_of_quiet_decode {stack : ℕ} {e : NamedType} {s : JsValue}
    (hoptional : e.optional = false) (hunchecked : decodeUnchecked m e = false)
    (hquiet : Quiet (decodeMemberSteps m (decodeSteps js m stack) e s)) :
    jsonThere s e = true := by
  rw [decodeUnchecked] at hunchecked
  rw [decodeMemberSteps] at hquiet
  cases hcode : m.memberCode e.type with
  | simple type =>
      rw [hcode] at hunchecked hquiet
      cases type with
      | null => exact absurd rfl (of_decide_eq_false hunchecked)
      | _ => exact jsonThere_of_quiet hoptional hquiet
  | systemTime =>
      rw [hcode] at hquiet
      exact jsonThere_of_quiet hoptional hquiet
  | converter className =>
      rw [hcode] at hquiet
      simp only [hoptional] at hquiet
      rw [jsonThere]
      cases hmember : s.member (fixName e.fieldName) with
      | undefined =>
          rw [hmember] at hquiet
          exact absurd hquiet (not_quiet_decodeSteps_undefined js m stack className)
      | _ => rfl

/-- The condition on data for `fromJSON`. -/
def DecodesSoundly (stack : ℕ) (typeName : String) (optional : Bool) (data : JsValue) : Prop :=
  Sound (decodeSteps js m stack typeName optional data)
    (Complete (m.type typeName) (decodeUnchecked m) (jsonThere (prepared js data))
      (prepared js data).elements
      fun element => keepsDecoded (comes js m (stack - 1)) (m.elementDecoderCode element))

theorem fromJSON_allOrNothing_iff {stack : ℕ} {typeName : String} {name : Option String}
    {optional : Bool} {data t : JsValue} {c c' : ConverterErrors}
    (hrun : (fromJSON js m stack typeName name optional data).run c = .ok (t, c'))
    (ht : t.isUndefined = false) :
    AllOrNothing c c' (Whole (m.type typeName) (jsonThere (prepared js data))
      (prepared js data).elements.length (arrayLength t)) ↔
      DecodesSoundly js m stack typeName optional data := by
  obtain ⟨htracks, hresult⟩ := calls_fromJSON js m stack typeName name optional data c t c' hrun
  refine unrecorded_and_iff htracks ht (fun hloud hdefined => ?_) fun hquiet => ?_
  · rw [result_of_loud hresult hloud] at hdefined
    cases hdefined
  · have hfrom := result_of_quiet hresult hquiet
    have hmade := (hfrom hquiet).2
    cases htruthy : (prepared js data).truthy with
    | false =>
        rw [htruthy] at hmade
        have hundefined : t = .undefined := hmade
        rw [hundefined] at ht
        cases ht
    | true =>
        -- here the object has been decoded: its members are checked, its elements kept
        rw [htruthy, if_pos rfl] at hmade
        refine whole_iff_complete (fun es hes e he hoptional hunchecked => ?_)
          fun element helement => ?_
        · cases stack with
          | zero => cases hrun
          | succ stack =>
              rw [decodeSteps, quiet_cons_enter, htruthy, if_pos rfl, hes, decodeBodySteps]
                at hquiet
              have hmember := quiet_of_mem_flatMap he (quiet_append.1 hquiet).2
              exact there_of_quiet_decode js m hoptional hunchecked hmember
        · have hlength := hmade.2
          rw [helement] at hlength
          obtain ⟨ts, rfl, hts⟩ := hlength
          exact congrArg some hts

end Decoder

section Ber

variable {Block : Type} (asn1 : Asn1ts Block) (m : Definitions)
  (explicit : NamedType → Bool) (elementType : String → BerType)

/-! ### toBER -/

theorem there_of_quiet_validateProperty {stack : ℕ} {e : NamedType} {s : JsValue}
    (hoptional : e.optional = false) (hunchecked : decodeUnchecked m e = false)
    (hquiet : Quiet (validatePropertySteps m (encodeBerSteps m stack) e s)) :
    jsonThere s e = true := by
  rw [decodeUnchecked] at hunchecked
  rw [validatePropertySteps] at hquiet
  cases hcode : m.memberCode e.type with
  | simple type =>
      rw [hcode] at hunchecked hquiet
      cases type with
      | null => exact absurd rfl (of_decide_eq_false hunchecked)
      | _ => exact jsonThere_of_quiet hoptional hquiet
  | systemTime =>
      rw [hcode] at hquiet
      exact jsonThere_of_quiet hoptional hquiet
  | converter className =>
      rw [hcode] at hquiet
      simp only [hoptional] at hquiet
      rw [jsonThere]
      cases hmember : s.member (fixName e.fieldName) with
      | undefined =>
          rw [hmember] at hquiet
          cases stack <;> exact absurd hquiet (not_quiet_fault _)
      | _ => rfl

/-- The condition on a value for `toBER`. -/
def EncodesBerSoundly (stack : ℕ) (typeName : String) (optional : Bool) (s : JsValue) : Prop :=
  Sound (encodeBerSteps m stack typeName optional s)
    (Complete (m.type typeName) (decodeUnchecked m) (jsonThere s) s.elements
      fun element _ => keepsBer (m.elementEncoderCode element))

theorem toBER_allOrNothing_iff {stack : ℕ} {typeName name : String} {optional : Bool}
    {s : JsValue} {t : Ber} {c c' : ConverterErrors}
    (hrun : (toBER asn1 m explicit stack typeName name optional s).run c = .ok (t, c'))
    (ht : t.isUndefined = false) :
    AllOrNothing c c' (Whole (m.type typeName) (jsonThere s) s.elements.length (berLength t)) ↔
      EncodesBerSoundly m stack typeName optional s := by
  cases stack with
  | zero => cases hrun
  | succ stack =>
      cases hs : s.truthy with
      | false =>
          have hundefined := toBER_falsy hs hrun
          rw [hundefined] at ht
          cases ht
      | true =>
          obtain ⟨htracks, hresult⟩ := calls_toBER_succ
            (fun className name optional s => follows_toBER asn1 m explicit stack className name
              optional s) hs c t c' hrun
          refine unrecorded_and_iff htracks ht (fun hloud hdefined => ?_) fun hquiet => ?_
          · rw [result_of_loud hresult hloud] at hdefined
            cases hdefined
          · have hfrom := result_of_quiet hresult hquiet
            refine whole_iff_complete (fun es hes e he hoptional hunchecked => ?_)
              fun element helement => ?_
            · rw [encodeBerSteps, if_pos hs, quiet_cons_enter, hes, encodeBerBodySteps] at hquiet
              have hmember := quiet_of_mem_flatMap he hquiet
              exact there_of_quiet_validateProperty m hoptional hunchecked hmember
            · have hlength := (hfrom hquiet).2
              rw [helement] at hlength
              obtain ⟨name, ts, rfl, hts⟩ := hlength
              exact congrArg some hts

/-! ### fromBER -/

/-- The block of the member is there. -/
def berThere (s : Block) (e : NamedType) : Bool :=
  let name := fixName e.fieldName
  match m.memberCode e.type with
  | .simple type => !(asn1Value asn1 s name type.berType (explicit e)).isUndefined
  | .systemTime => !(asn1Value asn1 s name .asnSystemTime (explicit e)).isUndefined
  | .converter className => (memberBlock asn1 m className s name).isSome

theorem not_quiet_decodeBerSteps_undefined (stack : ℕ) (typeName : String) :
    ¬Quiet (decodeBerSteps asn1 m explicit elementType stack typeName false .undefined) := by
  cases stack with
  | zero => exact not_quiet_fault _
  | succ stack =>
      rw [decodeBerSteps, quiet_cons_enter]
      exact not_quiet_fault _

theorem value_of_quiet_fillASN1 {s : Block} {name : String} {type : BerType} {constructed : Bool}
    (hquiet : Quiet (fillASN1Steps asn1 s name type false constructed)) :
    (asn1Value asn1 s name type constructed).isUndefined = false := by
  rw [fillASN1Steps] at hquiet
  split at hquiet
  · exact absurd hquiet (not_quiet_fault _)
  · split at hquiet
    · exact absurd hquiet (not_quiet_fault _)
    · next h => exact Bool.not_eq_true _ ▸ h

theorem there_of_quiet_decodeBer {stack : ℕ} {e : NamedType} {s : Block}
    (hoptional : e.optional = false)
    (hquiet : Quiet (decodeBerMemberSteps asn1 m explicit
      (decodeBerSteps asn1 m explicit elementType stack) e s)) :
    berThere asn1 m explicit s e = true := by
  rw [decodeBerMemberSteps] at hquiet
  rw [berThere]
  cases hcode : m.memberCode e.type with
  | simple type =>
      rw [hcode, hoptional] at hquiet
      simp only [value_of_quiet_fillASN1 asn1 hquiet, Bool.not_false]
  | systemTime =>
      rw [hcode, hoptional] at hquiet
      simp only [value_of_quiet_fillASN1 asn1 hquiet, Bool.not_false]
  | converter className =>
      rw [hcode] at hquiet
      simp only [hoptional] at hquiet
      cases hblock : memberBlock asn1 m className s (fixName e.fieldName) with
      | none =>
          rw [hblock] at hquiet
          exact absurd hquiet
            (not_quiet_decodeBerSteps_undefined asn1 m explicit elementType stack className)
      | some block => simp only [hblock, Option.isSome_some]

/-- The blocks of a list, and nothing where there is no block. -/
def blocksOf (s : Option Block) : List Block :=
  match s with
  | some s => asn1.value s
  | none => []

/-- The condition on data for `fromBER`. -/
def DecodesBerSoundly (stack : ℕ) (typeName : String) (optional : Bool) (data : BerData Block) :
    Prop :=
  Sound (decodeBerSteps asn1 m explicit elementType stack typeName optional data)
    (Complete (m.type typeName) (fun _ => false)
      (fun e => (preparedBer asn1 typeName data).any fun s => berThere asn1 m explicit s e)
      (blocksOf asn1 (preparedBer asn1 typeName data))
      fun element => keepsBerDecoded (comesBer asn1 m (stack - 1)) (m.elementDecoderCode element))

theorem fromBER_allOrNothing_iff (js : Runtime) {stack : ℕ} {typeName : String}
    {name : Option String} {optional : Bool} {data : BerData Block} {t : JsValue}
    {c c' : ConverterErrors}
    (hrun : (fromBER asn1 m explicit elementType js stack typeName name optional data).run c =
      .ok (t, c'))
    (ht : t.isUndefined = false) :
    AllOrNothing c c' (Whole (m.type typeName)
      (fun e => (preparedBer asn1 typeName data).any fun s => berThere asn1 m explicit s e)
      (blocksOf asn1 (preparedBer asn1 typeName data)).length (arrayLength t)) ↔
      DecodesBerSoundly asn1 m explicit elementType stack typeName optional data := by
  obtain ⟨htracks, hresult⟩ :=
    calls_fromBER asn1 m explicit elementType js stack typeName name optional data c t c' hrun
  refine unrecorded_and_iff htracks ht (fun hloud hdefined => ?_) fun hquiet => ?_
  · rw [result_of_loud hresult hloud] at hdefined
    cases hdefined
  · have hfrom := result_of_quiet hresult hquiet
    have hmade := hfrom hquiet
    cases hdata : preparedBer asn1 typeName data with
    | none =>
        rw [hdata] at hmade
        have hundefined : t = .undefined := hmade
        rw [hundefined] at ht
        cases ht
    | some s =>
        rw [hdata, BerResult] at hmade
        cases hstructure : isStructure asn1 m typeName s with
        | false =>
            rw [hstructure] at hmade
            have hundefined : t = .undefined := hmade.2
            rw [hundefined] at ht
            cases ht
        | true =>
            rw [hstructure, if_pos rfl] at hmade
            refine whole_iff_complete (fun es hes e he hoptional _ => ?_)
              fun element helement => ?_
            · cases stack with
              | zero => cases hrun
              | succ stack =>
                  rw [decodeBerSteps, quiet_cons_enter, hdata, decodeBlockSteps] at hquiet
                  have hbody := (quiet_append.1 hquiet).2
                  simp only [hstructure, if_true, hes, decodeBerBodySteps] at hbody
                  have hmember := quiet_of_mem_flatMap he hbody
                  exact there_of_quiet_decodeBer asn1 m explicit elementType hoptional hmember
            · have hlength := hmade.2.2
              rw [helement] at hlength
              obtain ⟨ts, rfl, hts⟩ := hlength
              exact congrArg some hts

end Ber

/-- Whatever the state of the list, a value that comes back is all or nothing exactly where the
last error comes after the last call, or there is none and nothing is passed over. -/
theorem allOrNothing_iff_soundly {Block : Type} (js : Runtime) (m : Definitions) (bAddTypes : Bool)
    (asn1 : Asn1ts Block) (explicit : NamedType → Bool) (elementType : String → BerType)
    (stack : ℕ) (typeName : String) (c c' : ConverterErrors) :
    (∀ name s t, (toJSON js m bAddTypes stack typeName name s).run c = .ok (t, c') →
      t.isUndefined = false →
      (AllOrNothing c c' (Whole (m.type typeName) (jsonThere s) s.elements.length
        (arrayLength t)) ↔ EncodesSoundly m stack typeName s)) ∧
    (∀ name optional data t,
      (fromJSON js m stack typeName name optional data).run c = .ok (t, c') →
      t.isUndefined = false →
      (AllOrNothing c c' (Whole (m.type typeName) (jsonThere (prepared js data))
        (prepared js data).elements.length (arrayLength t)) ↔
        DecodesSoundly js m stack typeName optional data)) ∧
    (∀ name optional s t,
      (toBER asn1 m explicit stack typeName name optional s).run c = .ok (t, c') →
      t.isUndefined = false →
      (AllOrNothing c c' (Whole (m.type typeName) (jsonThere s) s.elements.length
        (berLength t)) ↔ EncodesBerSoundly m stack typeName optional s)) ∧
    (∀ name optional data t,
      (fromBER asn1 m explicit elementType js stack typeName name optional data).run c =
        .ok (t, c') →
      t.isUndefined = false →
      (AllOrNothing c c' (Whole (m.type typeName)
        (fun e => (preparedBer asn1 typeName data).any fun s => berThere asn1 m explicit s e)
        (blocksOf asn1 (preparedBer asn1 typeName data)).length (arrayLength t)) ↔
        DecodesBerSoundly asn1 m explicit elementType stack typeName optional data)) :=
  ⟨fun _ _ _ hrun ht => toJSON_allOrNothing_iff m js bAddTypes hrun ht,
    fun _ _ _ _ hrun ht => fromJSON_allOrNothing_iff js m hrun ht,
    fun _ _ _ _ hrun ht => toBER_allOrNothing_iff asn1 m explicit hrun ht,
    fun _ _ _ _ hrun ht => fromBER_allOrNothing_iff asn1 m explicit elementType js hrun ht⟩

section Sample

/-- Two members of a type with one number, a list of that type and a choice of it. -/
def pair : Definitions where
  type n :=
    if n = "AsnSystemTime" then .alias (.simple .real) false
    else if n = "Pair" then .sequence [⟨"first", .ref "Single", false⟩,
      ⟨"second", .ref "Single", false⟩]
    else if n = "Single" then .sequence [⟨"number", .simple .integer, false⟩]
    else if n = "Choice" then .choice [⟨"single", .ref "Single", false⟩]
    else .sequenceOf (.ref "Single")
  resolved n := if n = "AsnSystemTime" then some .real else none
  root n := if n = "AsnSystemTime" then some .real else none
  resolved_eq n := by split_ifs <;> rfl
  root_eq n := by split_ifs <;> rfl
  systemTime := rfl

/-- Objects as blocks: a member is found under its name. -/
def objectBlocks : Asn1ts JsValue where
  typeGuard type s := match type, s with
    | .sequence, .object _ => true
    | .integer, .number _ => true
    | _, _ => false
  getValue s := s
  getValueByName s name := if (s.member name).isUndefined then none else some (s.member name)
  getTypedValueByName type s name := match type, s.member name with
    | .sequence, .object get => some (.object get)
    | .integer, .number x => some (.number x)
    | _, _ => none
  choiceName _ := "single"
  value s := s.elements
  verify _ _ := .error "no octets"
  getVariantTimeFromDateTime value := .ok value
  getDateTimeFromVariantTime value := value

def noErrors : ConverterErrors := ⟨[], 0, "", []⟩

def single : JsValue := .object fun name =>
  if name = "number" then .number (.finite 5) else .undefined

def emptyObject : JsValue := .object fun _ => .undefined

/-- The first member is not what it should be, the second is. -/
def halfPair : JsValue := .object fun name =>
  if name = "first" then emptyObject else if name = "second" then single else .undefined

/-- An object with a number goes through, in each direction. -/
theorem allOrNothing_single :
    (∃ t c', (toJSON sampleRuntime pair false 2 "Single" none single).run noErrors = .ok (t, c') ∧
      AllOrNothing noErrors c' (Whole (pair.type "Single") (jsonThere single) 0
        (arrayLength t))) ∧
    (∃ t c', (fromJSON sampleRuntime pair 2 "Single" none false single).run noErrors =
        .ok (t, c') ∧
      AllOrNothing noErrors c' (Whole (pair.type "Single") (jsonThere single) 0
        (arrayLength t))) ∧
    (∃ t c', (toBER objectBlocks pair (fun _ => false) 2 "Single" "" false single).run noErrors =
        .ok (t, c') ∧
      AllOrNothing noErrors c' (Whole (pair.type "Single") (jsonThere single) 0
        (berLength t))) ∧
    ∃ t c', (fromBER objectBlocks pair (fun _ => false) (fun _ => .sequence) sampleRuntime 2
        "Single" none false (.block single)).run noErrors = .ok (t, c') ∧
      AllOrNothing noErrors c' (Whole (pair.type "Single")
        (fun e => (some single).any fun s => berThere objectBlocks pair (fun _ => false) s e) 0
        (arrayLength t)) := by
  have hiff := allOrNothing_iff_soundly sampleRuntime pair false objectBlocks
    (fun _ => false) (fun _ => .sequence) 2 "Single" noErrors
  refine ⟨⟨_, _, rfl, ((hiff _).1 none single _ rfl rfl).2 (.inr ⟨by decide, ?_⟩)⟩,
    ⟨_, _, rfl, ((hiff _).2.1 none false single _ rfl rfl).2 (.inr ⟨by decide, ?_⟩)⟩,
    ⟨_, _, rfl, ((hiff _).2.2.1 "" false single _ rfl rfl).2 (.inr ⟨by decide, ?_⟩)⟩,
    ⟨_, _, rfl, ((hiff _).2.2.2 none false (.block single) _ rfl rfl).2
      (.inr ⟨by decide, ?_⟩)⟩⟩
  all_goals
    intro e he _ hunchecked
    rw [List.mem_singleton.1 he] at hunchecked
    cases hunchecked

/-- A pair comes back with one half, a list shorter than it was, a choice without what it is a
choice of. -/
theorem returns_what_is_left :
    (∃ t c', (toJSON sampleRuntime pair false 2 "Pair" none halfPair).run noErrors =
        .ok (t, c') ∧ t.isUndefined = false ∧
      ¬AllOrNothing noErrors c' (Whole (pair.type "Pair") (jsonThere halfPair) 0
        (arrayLength t))) ∧
    (∃ t c', (fromJSON sampleRuntime pair 2 "List" none false (.array [.undefined])).run noErrors =
        .ok (t, c') ∧ t.isUndefined = false ∧
      ¬AllOrNothing noErrors c' (Whole (pair.type "List")
        (jsonThere (.array [.undefined])) 1 (arrayLength t))) ∧
    (∃ t c', (toBER objectBlocks pair (fun _ => false) 2 "Pair" "" false halfPair).run noErrors =
        .ok (t, c') ∧ t.isUndefined = false ∧
      ¬AllOrNothing noErrors c' (Whole (pair.type "Pair") (jsonThere halfPair) 0
        (berLength t))) ∧
    (∃ t c', (fromBER objectBlocks pair (fun _ => false) (fun _ => .sequence) sampleRuntime 3
        "Choice" none false (.block emptyObject)).run noErrors = .ok (t, c') ∧
        t.isUndefined = false ∧
      ¬AllOrNothing noErrors c' (Whole (pair.type "Choice") (fun _ => true) 0
        (arrayLength t))) := by
  refine ⟨⟨_, _, rfl, rfl, fun h => ?_⟩, ⟨.array [], _, rfl, rfl, fun h => ?_⟩,
    ⟨_, _, rfl, rfl, fun h => ?_⟩, ⟨.object _, _, rfl, rfl, fun h => ?_⟩⟩
  · exact Nat.succ_ne_zero _ h.1.1
  · exact Nat.zero_ne_one (Option.some.inj h.2)
  · exact Nat.succ_ne_zero _ h.1.1
  · exact Nat.succ_ne_zero _ h.1.2

end Sample

end Converter

end Esnacc.Ts
