import Esnacc.Ts.JsonConverter

/-!
The BER converters that gen-ts-converter.c prints for a type definition, `toBER` and `fromBER`.
The blocks of the asn1ts library are a parameter with the functions that the printed text calls.
Context numbers are not modelled, nor what a block is made into as octets.
-/

namespace Esnacc.Ts

/-- GetBERType -/
inductive BerType where
  | boolean
  | integer
  | enumerated
  | utf8String
  | octetString
  | real
  | asnSystemTime
  | null
  | choice
  | sequence
  | setOf
  deriving DecidableEq

def SimpleType.berType : SimpleType → BerType
  | boolean => .boolean
  | integer => .integer
  | enumerated _ => .enumerated
  | real => .real
  | utf8String => .utf8String
  | octetString => .octetString
  | null => .null

/-- What `toBER` makes. -/
inductive Ber where
  | undefined
  | primitive (type : BerType) (name : String) (value : JsValue)
  | sequence (name : String) (elements : List Ber)

namespace Ber

def isUndefined : Ber → Bool
  | undefined => true
  | _ => false

end Ber

/-- What `fromBER` is called with. -/
inductive BerData (Block : Type) where
  | undefined
  | octets (octets : List Byte)
  | block (block : Block)

/-- The functions of asn1ts; `verify` is all that is done with octets under the schema of a class,
with the text of the error; the conversions of dates to variant times and back are in floating
point. -/
structure Asn1ts (Block : Type) where
  typeGuard : BerType → Block → Bool
  getValue : Block → JsValue
  getValueByName : Block → String → Option Block
  getTypedValueByName : BerType → Block → String → Option Block
  choiceName : Block → String
  value : Block → List Block
  verify : String → List Byte → Except String Block
  getVariantTimeFromDateTime : JsValue → Except JsException JsValue
  getDateTimeFromVariantTime : JsValue → JsValue

namespace Definitions

variable (m : Definitions)

/-- ResolveBasicTypeReferences, as far as it is a simple type. -/
def resolvedOf : Ty → Option SimpleType
  | .simple type => some type
  | .ref className => m.resolved className

/-- The type of the block of a member with a converter; the printer stops at a reference to a
reference. -/
def blockType (className : String) : BerType :=
  match m.type className with
  | .choice _ => .choice
  | _ => .sequence

end Definitions

namespace Converter

/-- A converter that is called without a list of errors makes one for itself. -/
def withOwnErrors {α : Type} (x : Converter α) : Converter α := fun c => do
  let (a, c') ← x.run { c with errors := [], lastStoredErrorCount := 0 }
  return (a, { c with context := c'.context, elsewhere := c'.elsewhere ++ c'.errors })

variable {Block : Type} (asn1 : Asn1ts Block) (m : Definitions)
  (explicit : NamedType → Bool) (elementType : String → BerType)

/-! ### toBER -/

section Encoder

def addMissingError (name : String) (optional : Bool) : Converter Unit :=
  unlessOptional optional (do
    push ⟨some .propertyMissing, some ((← get).context ++ "::" ++ name), "property missing"⟩)

variable (nested : String → String → Bool → JsValue → Converter Ber)

/-- Print_BER_EncoderValidateProperty: what has been made of a member with a converter. -/
def validateProperty (e : NamedType) (s : JsValue) : Converter Ber :=
  let name := fixName e.fieldName
  match m.memberCode e.type with
  | .simple .null => pure .undefined
  | .simple type => do
      let _ ← validateParam s name type.jsonType e.optional
      return .undefined
  | .systemTime => do
      let _ ← validateParam s name .date e.optional
      return .undefined
  | .converter className => do
      nested className name e.optional (← liftM (s.property name))

def validateProperties (s : JsValue) : List NamedType → Converter (List (NamedType × Ber))
  | [] => pure []
  | e :: es => do
      let x ← validateProperty m nested e s
      return (e, x) :: (← validateProperties s es)

/-- Print_BER_EncoderAssignProperty; what has been made of a member is asked for under the name that
the member has in the definition. -/
def assignProperty (s : JsValue) (e : NamedType) (x : Ber) : Except JsException (List Ber) := do
  let name := fixName e.fieldName
  let value ← s.property name
  let wrap (b : Ber) : List Ber := if explicit e then [.sequence "" [b]] else [b]
  match m.memberCode e.type with
  | .converter _ =>
      if x.isUndefined then return []
      if plain e.fieldName then return wrap x
      throw .referenceError
  | code =>
      if e.optional && value.isUndefined then return []
      match code with
      | .simple type => return wrap (.primitive type.berType name value)
      | _ => return wrap (.primitive .real name (← asn1.getVariantTimeFromDateTime value))

def assignProperties (s : JsValue) : List (NamedType × Ber) → Except JsException (List Ber)
  | [] => .ok []
  | (e, x) :: rest => do
      let elements ← assignProperty asn1 m explicit s e x
      return elements ++ (← assignProperties s rest)

/-- Print_BER_EncoderChoiceDefCode: a simple alternative is asked for as an optional member, so that
one of another type is an error and the next alternative is tried. -/
def encodeBerChoice (s : JsValue) : List NamedType → Converter Ber
  | [] => do
      pushHere .propertyMissing "property missing"
      return .undefined
  | e :: es =>
      let name := fixName e.fieldName
      match m.memberCode e.type with
      | .converter className => do
          let value ← liftM (s.property name)
          if value.truthy then nested className name false value
          else encodeBerChoice s es
      | code => do
          let expectedType := match code with
            | .simple type => type.jsonType
            | _ => .date
          if ← validateParam s name expectedType true then
            let value ← liftM (s.property name)
            let type := match code with
              | .simple type => type.berType
              | _ => .asnSystemTime
            return .primitive type name value
          else
            encodeBerChoice s es

/-- Print_BER_EncoderSetOfDefCode -/
def encodeBerElements (typeName : String) (code : Code) :
    List JsValue → List Ber → Converter (List Ber)
  | [], t => pure t
  | se :: rest, t =>
      match code with
      | .simple type => do
          if ← validateParamType se typeName type.jsonType false then
            encodeBerElements typeName code rest (t ++ [.primitive type.berType "" se])
          else
            encodeBerElements typeName code rest t
      | .systemTime => encodeBerElements typeName code rest t
      | .converter className => do
          let val ← nested className className false se
          encodeBerElements typeName code rest (if val.isUndefined then t else t ++ [val])

def encodeBerBody (name : String) (optional : Bool) (s : JsValue) (typeName : String) :
    TypeDef → Converter Ber
  | .alias (.simple _) _ => throw .referenceError
  | .alias (.ref className) _ => do
      let v ← nested className name optional s
      return .sequence name (if v.isUndefined || (← hasNewErrors) then [] else [v])
  | .sequence es => do
      let made ← validateProperties m nested s es
      if ← hasNewErrors then return .sequence name []
      else return .sequence name (← liftM (assignProperties asn1 m explicit s made))
  | .choice es => encodeBerChoice m nested s es
  | .sequenceOf element => do
      let elements ← liftM s.iterate
      return .sequence name
        (← encodeBerElements nested typeName (m.elementEncoderCode element) elements [])

end Encoder

def toBER : ℕ → String → String → Bool → JsValue → Converter Ber
  | 0, _, _, _, _ => throw .rangeError
  | stack + 1, typeName, name, optional, s => do
      liftM (converterOf m typeName)
      let name := if name = "" then typeName else name
      if !s.truthy then
        addMissingError name optional
        return .undefined
      storeState
      addContext (some name) typeName
      let t ← encodeBerBody asn1 m explicit (toBER stack) name optional s typeName
        (m.type typeName)
      if ← validateResult true typeName then return t else return .undefined

/-! ### fromBER -/

section Decoder

variable (js : Runtime)

def prepareASN1BERData (typeName : String) (data : BerData Block) (optional : Bool) :
    Converter (Option Block) :=
  match data with
  | .undefined => do
      unlessOptional optional (pushHere .propertyMissing "property missing")
      return none
  | .octets octets =>
      match asn1.verify typeName octets with
      | .ok block => return some block
      | .error message => do
          pushHere .propertyNullOrUndefined message
          return none
  | .block block => return some block

/-- The block under a name, inside of another one when the member is explicit. -/
def asn1Value (s : Block) (name : String) (type : BerType) (constructed : Bool) : JsValue :=
  let s := if constructed then asn1.getTypedValueByName .sequence s name else some s
  let value := fun type => ((s.bind fun s => asn1.getTypedValueByName type s name).map
    asn1.getValue).getD .undefined
  match type with
  | .asnSystemTime =>
      if (value .real).isUndefined then .undefined
      else asn1.getDateTimeFromVariantTime (value .real)
  | type => value type

/-- An octet string is a type that is not supported here. -/
def fillASN1Param (s : Block) (target : JsValue) (propertyName : String) (type : BerType)
    (optional constructed : Bool) : Converter JsValue := do
  let there := !constructed || (asn1.getTypedValueByName .sequence s propertyName).isSome
  if there && type = .octetString then
    pushAt .propertyTypeMismatch propertyName "Unsupported data type OctetString"
    return target
  let value := asn1Value asn1 s propertyName type constructed
  if value.isUndefined then
    unlessOptional optional
      (if (asn1.getValueByName s propertyName).isSome then
        pushAt .propertyTypeMismatch propertyName "property is of the wrong type"
      else pushAt .propertyMissing propertyName "property missing")
    return target
  else
    return target.set propertyName value

variable (nested : String → Option String → Bool → BerData Block → Converter JsValue)

/-- `undefined` for a block that is not there. -/
def blockData (block : Option Block) : BerData Block :=
  match block with
  | some block => .block block
  | none => .undefined

/-- Print_BER_DecoderNamedType; a CHOICE is looked up without a type. -/
def decodeBerMember (e : NamedType) (s : Block) (t : JsValue) : Converter JsValue :=
  let name := fixName e.fieldName
  match m.memberCode e.type with
  | .simple type => fillASN1Param asn1 s t name type.berType e.optional (explicit e)
  | .systemTime => fillASN1Param asn1 s t name .asnSystemTime e.optional (explicit e)
  | .converter className => do
      let block := if m.blockType className = .choice then asn1.getValueByName s name
        else asn1.getTypedValueByName .sequence s name
      let x ← nested className (some name) e.optional (blockData block)
      return if e.optional || x.truthy then t.set name x else t

def decodeBerSequence (s : Block) : List NamedType → JsValue → Converter JsValue
  | [], t => pure t
  | e :: es, t => do
      decodeBerSequence s es (← decodeBerMember asn1 m explicit nested e s t)

/-- Print_BER_DecoderChoiceDefCode: a structured alternative is decoded without the list. For one
that is a CHOICE nothing is printed, the compiler ends there. -/
def decodeBerAlternative (e : NamedType) (s : Block) (t : JsValue) : Converter JsValue :=
  match Definitions.codeOf (m.resolvedOf e.type) e.type with
  | .simple type => do
      let value := asn1.getValue s
      if ← validateParamType value e.fieldName type.jsonType e.optional then
        return t.set e.fieldName value
      else return t
  | .systemTime => pure t
  | .converter className => do
      let x ← withOwnErrors (nested className (some e.fieldName) e.optional (.block s))
      return t.set e.fieldName x

/-- The type that an alternative is compared with. -/
def alternativeType (e : NamedType) : BerType :=
  match m.resolvedOf e.type with
  | some type => type.berType
  | none => .sequence

def decodeBerChoice (optional : Bool) (s : Block) (t : JsValue) :
    List NamedType → Converter JsValue
  | [] => do
      unlessOptional optional (pushHere .propertyMissing "Property has not been filled")
      return t
  | e :: es =>
      if asn1.choiceName s = e.fieldName && asn1.typeGuard (alternativeType m e) s then
        decodeBerAlternative asn1 m nested e s t
      else decodeBerChoice optional s t es

/-- Print_BER_DecoderSetOfDefCode; the test for octet strings is one that throws. -/
def decodeBerElements (typeName : String) (code : Code) (optional : Bool) :
    List Block → List JsValue → Converter (List JsValue)
  | [], t => pure t
  | se :: rest, t =>
      match code with
      | .simple type =>
          if asn1.typeGuard type.berType se then do
            let value := asn1.getValue se
            if type = .octetString then
              throw .typeError
            if ← validateParamType value typeName type.jsonType false then
              decodeBerElements typeName code optional rest (t ++ [value])
            else
              decodeBerElements typeName code optional rest t
          else do
            pushHere .propertyTypeMismatch "wrong type"
            decodeBerElements typeName code optional rest t
      | .systemTime => decodeBerElements typeName code optional rest t
      | .converter className =>
          if asn1.typeGuard (elementType className) se then do
            let val ← nested className (some className) optional (.block se)
            decodeBerElements typeName code optional rest (if val.truthy then t ++ [val] else t)
          else do
            pushHere .propertyTypeMismatch "wrong type"
            decodeBerElements typeName code optional rest t

/-- What is made of a reference to an imported type is a constant of the block it is made in. -/
def decodeBerBody (empty : Except JsException JsValue) (typeName : String)
    (name : Option String) (optional : Bool) (s : Block) : TypeDef → Converter JsValue
  | .alias (.simple _) _ => throw .referenceError
  | .alias (.ref className) imported => do
      let t ← nested className name optional (.block s)
      return if imported then .undefined else t
  | .sequence es => do decodeBerSequence asn1 m explicit nested s es (← liftM empty)
  | .choice es => do decodeBerChoice asn1 m nested optional s (← liftM empty) es
  | .sequenceOf element => do
      return .array (← decodeBerElements asn1 elementType nested typeName
        (m.elementDecoderCode element) optional (asn1.value s) [])

end Decoder

/-- Everything but a CHOICE has to be a sequence. -/
def isStructure (typeName : String) (s : Block) : Bool :=
  match m.type typeName with
  | .choice _ => true
  | _ => asn1.typeGuard .sequence s

def fromBER (js : Runtime) :
    ℕ → String → Option String → Bool → BerData Block → Converter JsValue
  | 0, _, _, _, _ => throw .rangeError
  | stack + 1, typeName, name, optional, data => do
      liftM (converterOf m typeName)
      storeState
      addContext name typeName
      let s ← prepareASN1BERData asn1 typeName data optional
      let t ← (match s with
        | some s =>
            if isStructure asn1 m typeName s then
              decodeBerBody asn1 m explicit elementType (fromBER js stack)
                (initEmpty js m stack typeName) typeName name optional s (m.type typeName)
            else pure .undefined
        | none => pure .undefined : Converter JsValue)
      if ← validateResult false typeName then return t else return .undefined

end Converter

end Esnacc.Ts
