import Esnacc.Ts.ConverterBase

/-!
The JSON converters that gen-ts-converter.c prints for a type definition: `toJSON` and `fromJSON`
are what the printed text does. The printer chooses a statement by the type of a member, of an
alternative or of an element, and each of these choices is a function of its own here.

Embedded types have been made definitions of their own before, so that members and elements are of
a simple type or references. The stack of calls is bounded, and a RangeError is thrown at its end.
-/

namespace Esnacc.Ts

/-- An enumeration has the number of its first name with it. -/
inductive SimpleType where
  | boolean
  | integer
  | enumerated (first : ℤ)
  | real
  | utf8String
  | octetString
  | null
  deriving DecidableEq

/-- GetJSONType -/
def SimpleType.jsonType : SimpleType → ExpectedType
  | boolean => .boolean
  | integer | enumerated _ | real => .number
  | utf8String => .string
  | octetString => .uint8Array
  | null => .null

inductive Ty where
  | simple (type : SimpleType)
  | ref (className : String)
  deriving DecidableEq

structure NamedType where
  fieldName : String
  type : Ty
  optional : Bool

/-- Another name may be one for a definition of the same module or an imported one. -/
inductive TypeDef where
  | alias (type : Ty) (imported : Bool)
  | sequence (elements : List NamedType)
  | choice (elements : List NamedType)
  | sequenceOf (element : Ty)

/-- The definitions that references are linked to, and where ResolveTypeReferencesToRoot
(`resolved`, through other names) and GetRootType (`root`, through lists as well) come to from a
name, as far as it is a simple type. -/
structure Definitions where
  type : String → TypeDef
  resolved : String → Option SimpleType
  root : String → Option SimpleType
  resolved_eq : ∀ name, resolved name = match type name with
    | .alias (.simple type) _ => some type
    | .alias (.ref className) _ => resolved className
    | .sequenceOf _ | .sequence _ | .choice _ => none
  root_eq : ∀ name, root name = match type name with
    | .alias (.simple type) _ | .sequenceOf (.simple type) => some type
    | .alias (.ref className) _ | .sequenceOf (.ref className) => root className
    | .sequence _ | .choice _ => none
  systemTime : type "AsnSystemTime" = .alias (.simple .real) false

/-- The case of a switch over `choiceId`. -/
inductive Code where
  | simple (type : SimpleType)
  | systemTime
  | converter (className : String)
  deriving DecidableEq

namespace Definitions

variable (m : Definitions)

/-- GetBaseBasicType, as far as it is a simple type: one reference is followed. -/
def base : Ty → Option SimpleType
  | .simple type => some type
  | .ref className =>
      match m.type className with
      | .alias (.simple type) _ => some type
      | _ => none

/-- GetRootType, as far as it is a simple type. -/
def rootOf : Ty → Option SimpleType
  | .simple type => some type
  | .ref className => m.root className

/-- A simple type, or else the reference itself. -/
def codeOf (found : Option SimpleType) (type : Ty) : Code :=
  match found, type with
  | some simple, _ => .simple simple
  | none, .ref className => .converter className
  | none, .simple simple => .simple simple

/-- The statement for a member of a SEQUENCE, on both sides, and for the encoder of a CHOICE. -/
def memberCode (type : Ty) : Code :=
  if type = .ref "AsnSystemTime" then .systemTime else codeOf (m.base type) type

/-- The statement for an alternative in the decoder of a CHOICE. -/
def choiceDecoderCode (type : Ty) : Code := codeOf (m.rootOf type) type

/-- The statement for an element in the encoder of a list. -/
def elementEncoderCode (type : Ty) : Code := codeOf (m.base type) type

/-- The statement for an element in the decoder of a list. -/
def elementDecoderCode (type : Ty) : Code := codeOf (m.rootOf type) type

end Definitions

/-- A hyphen becomes an underscore. -/
def fixName (name : String) : String :=
  String.ofList (name.toList.map fun c => if c = '-' then '_' else c)

/-- No hyphen in it. -/
def plain (name : String) : Bool := fixName name = name

/-- What JavaScript brings along: texts of dates, JSON texts and the current time. -/
structure Runtime where
  toISOString : ℤ → String
  newDate : String → Option ℤ
  parse : String → Option JsValue
  now : ℤ

/-- What a date can be: a hundred million days around 1970. -/
def ValidTime (time : ℤ) : Prop := -8640000000000000 ≤ time ∧ time ≤ 8640000000000000

instance (time : ℤ) : Decidable (ValidTime time) := inferInstanceAs (Decidable (_ ∧ _))

/-- A date comes back from its text. -/
def Runtime.DatesComeBack (js : Runtime) : Prop :=
  ∀ time, ValidTime time → js.newDate (js.toISOString time) = some time ∧ js.toISOString time ≠ ""

namespace Converter

variable (js : Runtime) (m : Definitions) (bAddTypes : Bool)

/-! ### toJSON -/

section Encoder

/-- The value of a member as it is written. -/
def asJSON (expectedType : ExpectedType) (value : JsValue) : Except JsException JsValue :=
  match expectedType, value with
  | .date, .date (some time) => .ok (.string (js.toISOString time))
  | .date, .date none => .error .rangeError
  | .uint8Array, .bytes octets => .ok (.string (encode64 octets))
  | _, value => .ok value

/-- The target with the parameter. -/
def fillJSONParam (data target : JsValue) (propertyName : String) (expectedType : ExpectedType)
    (optional : Bool) : Converter JsValue := do
  if ← validateParam data propertyName expectedType optional then
    let value ← liftM (data.property propertyName)
    return target.set propertyName (← liftM (asJSON js expectedType value))
  else
    return target

variable (nested : String → Option String → JsValue → Converter JsValue)

/-- Print_JSON_EncoderNamedType -/
def encodeMember (code : Code) (e : NamedType) (s t : JsValue) : Converter JsValue :=
  let name := fixName e.fieldName
  match code with
  | .simple type => fillJSONParam js s t name type.jsonType e.optional
  | .systemTime => fillJSONParam js s t name .date e.optional
  | .converter className => do
      let value ← liftM (s.property name)
      if e.optional && !value.truthy then
        return t
      let x ← nested className (some name) value
      return if x.truthy then t.set name x else t

/-- Print_JSON_EncoderSeqDefCode -/
def encodeSequence (s : JsValue) : List NamedType → JsValue → Converter JsValue
  | [], t => pure t
  | e :: es, t => do encodeSequence s es (← encodeMember js nested (m.memberCode e.type) e s t)

/-- Print_JSON_EncoderChoiceDefCode: the first alternative that is not null, and of a NULL the
first that is. -/
def encodeChoice (s t : JsValue) : List NamedType → Converter JsValue
  | [] => do
      pushHere .propertyMissing "property missing"
      return t
  | e :: es => do
      let value ← liftM (s.property e.fieldName)
      let chosen := if m.memberCode e.type = .simple .null then value.isNull else !value.isNullish
      if chosen then encodeMember js nested (m.memberCode e.type) e s t
      else encodeChoice s t es

/-- Print_JSON_EncoderSetOfDefCode: elements that are undefined or come to nothing are left out. -/
def encodeElements (typeName : String) (code : Code) :
    List JsValue → List JsValue → Converter (List JsValue)
  | [], t => pure t
  | se :: rest, t =>
      match code with
      | .simple type => do
          if ← validateParamType se typeName type.jsonType false then
            encodeElements typeName code rest (t ++ [se])
          else
            encodeElements typeName code rest t
      | .systemTime => encodeElements typeName code rest t
      | .converter className =>
          if se.isUndefined then encodeElements typeName code rest t
          else do
            let val ← nested className (some className) se
            encodeElements typeName code rest (if val.truthy then t ++ [val] else t)

/-- The members of a new object: the name of the type when types are added. -/
def newMembers (typeName name : String) : JsValue :=
  if bAddTypes ∧ name = "_type" then .string typeName else .undefined

/-- The statements between the state that is stored and the result that is validated. -/
def encodeBody (typeName : String) (name : Option String) (s : JsValue) :
    TypeDef → Converter JsValue
  | .alias (.simple _) _ => throw .referenceError
  | .alias (.ref className) _ => nested className name s
  | .sequence es => encodeSequence js m nested s es (.object (newMembers bAddTypes typeName))
  | .choice es => encodeChoice js m nested s (.object (newMembers bAddTypes typeName)) es
  | .sequenceOf element => do
      let elements ← liftM s.iterate
      return .array (← encodeElements nested typeName (m.elementEncoderCode element) elements [])

end Encoder

/-- What is printed for the definition is a program: the alternatives of a CHOICE are read under
names without a hyphen, and the constants for the members with a converter, whose names are in
lower case, are different. -/
def compiles : TypeDef → Bool
  | .choice es => es.all fun e => plain e.fieldName
  | .sequence es =>
      ((es.filter fun e => m.memberCode e.type matches .converter _).map
        fun e => (fixName e.fieldName).toList.map Char.toLower).Nodup
  | _ => true

/-- No converter is printed for another name of a simple type or of an enumeration. -/
def hasConverter (typeName : String) : Bool :=
  match m.type typeName, m.resolved typeName with
  | .alias (.simple _) _, _ => false
  | _, some (.enumerated _) => false
  | _, _ => true

/-- The class is looked up before its function is called. -/
def converterOf (typeName : String) : Except JsException Unit :=
  if !hasConverter m typeName then .error .referenceError
  else if !compiles m (m.type typeName) then .error .syntaxError
  else .ok ()

def toJSON : ℕ → String → Option String → JsValue → Converter JsValue
  | 0, _, _, _ => throw .rangeError
  | stack + 1, typeName, name, s => do
      liftM (converterOf m typeName)
      storeState
      addContext name typeName
      let t ← encodeBody js m bAddTypes (toJSON stack) typeName name s (m.type typeName)
      if ← validateResult true typeName then return t else return .undefined

/-! ### fromJSON -/

section Decoder

/-- PrintTS_JSON_DefaultValue -/
def defaultValue (initEmpty : String → Except JsException JsValue) (type : Ty) :
    Except JsException JsValue :=
  match m.memberCode type with
  | .simple .boolean => .ok (.boolean false)
  | .simple (.enumerated first) => .ok (.number (.finite first))
  | .simple .integer | .simple .real => .ok (.number (.finite 0))
  | .simple .utf8String => .ok (.string "")
  | .simple .octetString => .ok (.bytes [])
  | .simple .null => .ok .null
  | .systemTime => .ok (.date (some js.now))
  | .converter className =>
      match m.type className with
      | .sequenceOf _ => .ok (.array [])
      | _ => initEmpty className

/-- The members which are not optional, with their default values. -/
def emptyMembers (initEmpty : String → Except JsException JsValue) :
    List NamedType → JsValue → Except JsException JsValue
  | [], t => .ok t
  | e :: es, t =>
      if e.optional then emptyMembers initEmpty es t
      else do
        let value ← defaultValue js m initEmpty e.type
        emptyMembers initEmpty es (t.set (fixName e.fieldName) value)

/-- `initEmpty` of the class, which an imported class inherits; the name of a local reference is
not one inside of its module. -/
def initEmpty : ℕ → String → Except JsException JsValue
  | 0, _ => .error .rangeError
  | stack + 1, className =>
      match m.type className with
      | .sequence es => emptyMembers js m (initEmpty stack) es (.object fun _ => .undefined)
      | .choice _ => .ok (.object fun _ => .undefined)
      | .alias (.ref original) true => initEmpty stack original
      | .alias (.simple _) _ | .alias (.ref _) false => .error .referenceError
      | .sequenceOf _ => .error .typeError

/-- The data as an object; a text is parsed, without a square bracket and what closes it. -/
def prepareJSONData (data : JsValue) (optional : Bool) : Converter JsValue :=
  match data with
  | .undefined | .null => do
      unlessOptional optional (pushHere .propertyMissing "property missing")
      return .undefined
  | .string text =>
      let text := if text.startsWith "[" then ((text.drop 1).dropEnd 1).toString else text
      match js.parse text with
      | some result => return result
      | none => do
          pushHere .propertyNullOrUndefined "Could not json parse - "
          return .undefined
  | data => return data

/-- A Uint8Array from its text. -/
def fromText (value : JsValue) : Except JsException JsValue :=
  match value with
  | .string text =>
      match decode64 text with
      | some octets => .ok (.bytes octets)
      | none => .error .rangeError
  | _ => .error .typeError

/-- `new Date(...)` -/
def fromDateText (value : JsValue) : JsValue :=
  match value with
  | .string text => .date (js.newDate text)
  | _ => .date none

variable (nested : String → Option String → Bool → JsValue → Converter JsValue)

/-- A text that is there and, when the member is optional, not empty; an optional member is asked
for under the name that it has in the definition. -/
def decodeText (e : NamedType) (convert : JsValue → Except JsException JsValue) (s t : JsValue) :
    Converter JsValue := do
  let name := fixName e.fieldName
  if ← validateParam s name .string e.optional then
    if e.optional && !plain e.fieldName then
      throw .referenceError
    let value ← liftM (s.property name)
    if e.optional && !value.truthy then
      return t
    return t.set name (← liftM (convert value))
  else
    return t

/-- Print_JSON_DecoderNamedType -/
def decodeMember (e : NamedType) (s t : JsValue) : Converter JsValue :=
  let name := fixName e.fieldName
  match m.memberCode e.type with
  | .simple .null => pure t
  | .simple .octetString => decodeText e fromText s t
  | .systemTime => decodeText e (fun value => .ok (fromDateText js value)) s t
  | .simple type => fillJSONParam js s t name type.jsonType e.optional
  | .converter className => do
      let x ← nested className (some name) e.optional (← liftM (s.property name))
      return if x.truthy then t.set name x else t

/-- Print_JSON_DecoderSeqDefCode -/
def decodeSequence (s : JsValue) : List NamedType → JsValue → Converter JsValue
  | [], t => pure t
  | e :: es, t => do decodeSequence s es (← decodeMember js m nested e s t)

/-- The statement for the first alternative that is there, Print_JSON_DecoderChoiceDefCode. -/
def decodeAlternative (e : NamedType) (s t : JsValue) : Converter JsValue :=
  match m.choiceDecoderCode e.type with
  | .simple .octetString => do
      if ← validateParam s e.fieldName .string false then
        return t.set e.fieldName (← liftM (fromText (← liftM (s.property e.fieldName))))
      else return t
  | .simple type => do
      if ← validateParam s e.fieldName type.jsonType false then
        return t.set e.fieldName (← liftM (s.property e.fieldName))
      else return t
  | .systemTime => pure t
  | .converter className => do
      let x ← nested className (some e.fieldName) e.optional (← liftM (s.property e.fieldName))
      return t.set e.fieldName x

def decodeChoice (optional : Bool) (s t : JsValue) : List NamedType → Converter JsValue
  | [] => do
      unlessOptional optional (pushHere .propertyMissing "Property has not been filled")
      return t
  | e :: es => do
      let value ← liftM (s.property e.fieldName)
      if value.isUndefined then decodeChoice optional s t es
      else decodeAlternative m nested e s t

/-- Print_JSON_DecoderSetOfDefCode: octet strings are compared with the result of a test, and the
statement behind the comparison is not reached. -/
def decodeElements (typeName : String) (code : Code) :
    List JsValue → List JsValue → Converter (List JsValue)
  | [], t => pure t
  | se :: rest, t =>
      match code with
      | .simple type => do
          let expectedType := match type with
            | .octetString => .flag (se matches .bytes _)
            | type => type.jsonType
          if ← validateParamType se typeName expectedType false then
            decodeElements typeName code rest (t ++ [se])
          else
            decodeElements typeName code rest t
      | .systemTime => decodeElements typeName code rest t
      | .converter className =>
          if se.isUndefined then decodeElements typeName code rest t
          else do
            let val ← nested className (some className) false se
            decodeElements typeName code rest (if val.truthy then t ++ [val] else t)

def decodeBody (empty : Except JsException JsValue) (typeName : String) (name : Option String)
    (optional : Bool) (s : JsValue) : TypeDef → Converter JsValue
  | .alias (.simple _) _ => throw .referenceError
  | .alias (.ref className) imported =>
      nested className (if imported then none else name) optional s
  | .sequence es => do decodeSequence js m nested s es (← liftM empty)
  | .choice es => do decodeChoice m nested optional s (← liftM empty) es
  | .sequenceOf element => do
      let elements ← liftM s.iterate
      return .array (← decodeElements nested typeName (m.elementDecoderCode element) elements [])

end Decoder

def fromJSON : ℕ → String → Option String → Bool → JsValue → Converter JsValue
  | 0, _, _, _, _ => throw .rangeError
  | stack + 1, typeName, name, optional, data => do
      liftM (converterOf m typeName)
      storeState
      addContext name typeName
      let s ← prepareJSONData js data optional
      let t ← (if s.truthy then
          decodeBody js m (fromJSON stack) (initEmpty js m stack typeName) typeName name optional s
            (m.type typeName)
        else pure .undefined : Converter JsValue)
      if ← validateResult false typeName then return t else return .undefined

end Converter

end Esnacc.Ts
