import Mathlib.Data.Rat.Defs
import Mathlib.Data.List.Basic
import Mathlib.Order.Basic
import Mathlib.Logic.Function.Basic
import Mathlib.Control.Monad.Basic
import Esnacc.Ts.Base64Text

/-!
What the converters of TSConverterBase.ts are made of: JavaScript values as far as converters look
at them, the list of errors with its stored mark, and the checks on a member of an object.

A value of another kind than an object has no members. That a member is there and undefined is not
told apart from that it is not there: both are an error unless the member is optional. Strict mode
throughout, so `bLaxEncoding` and `bLaxDecoding` are false; a context object is one for all nested
calls, and its `root` is never set to false.
-/

namespace Esnacc.Ts

/-- A number; 0 and -0 are the same. -/
inductive JsNumber where
  | nan
  | infinite (negative : Bool)
  | finite (x : ℚ)
  deriving DecidableEq

/-- An object is what its members are, a date the time value of it (`none` for Invalid Date). -/
inductive JsValue where
  | undefined
  | null
  | boolean (b : Bool)
  | number (x : JsNumber)
  | string (s : String)
  | bytes (octets : List Byte)
  | date (time : Option ℤ)
  | array (elements : List JsValue)
  | object (get : String → JsValue)

instance : Inhabited JsValue := ⟨.undefined⟩

/-- The exceptions which a converter can end with. -/
inductive JsException where
  | typeError
  | rangeError
  | referenceError
  | syntaxError
  deriving DecidableEq, Repr

/-- The names of types a property is compared with, and the result of an `instanceof` test in the
place of such a name. -/
inductive ExpectedType where
  | boolean
  | number
  | object
  | string
  | uint8Array
  | date
  | null
  | flag (b : Bool)
  deriving DecidableEq

namespace ExpectedType

def text : ExpectedType → String
  | boolean => "boolean"
  | number => "number"
  | object => "object"
  | string => "string"
  | uint8Array => "Uint8Array"
  | date => "Date"
  | null => "null"
  | flag true => "true"
  | flag false => "false"

end ExpectedType

namespace JsValue

/-- `typeof`. -/
def typeof : JsValue → String
  | undefined => "undefined"
  | boolean _ => "boolean"
  | number _ => "number"
  | string _ => "string"
  | null | bytes _ | date _ | array _ | object _ => "object"

def truthy : JsValue → Bool
  | undefined | null => false
  | boolean b => b
  | number .nan => false
  | number (.infinite _) => true
  | number (.finite x) => x ≠ 0
  | string s => s ≠ ""
  | bytes _ | date _ | array _ | object _ => true

def isUndefined : JsValue → Bool
  | undefined => true
  | _ => false

/-- `== null`. -/
def isNullish : JsValue → Bool
  | undefined | null => true
  | _ => false

/-- `=== null`. -/
def isNull : JsValue → Bool
  | null => true
  | _ => false

/-- `s.name`. -/
def property (s : JsValue) (name : String) : Except JsException JsValue :=
  match s with
  | undefined | null => .error .typeError
  | object get => .ok (get name)
  | _ => .ok undefined

/-- `t.name = value`. -/
def set (t : JsValue) (name : String) (value : JsValue) : JsValue :=
  match t with
  | object get => object (Function.update get name value)
  | t => t

/-- What `for (const se of s)` goes through. -/
def iterate : JsValue → Except JsException (List JsValue)
  | array elements => .ok elements
  | string s => .ok (s.toList.map fun c => string (String.singleton c))
  | bytes octets => .ok (octets.map fun b => number (.finite b.toNat))
  | _ => .error .typeError

end JsValue

inductive ConverterErrorType where
  | propertyMissing
  | propertyNullOrUndefined
  | propertyTypeMismatch
  | notAnObject
  deriving DecidableEq, Repr

structure ConverterError where
  errortype : Option ConverterErrorType
  propertyname : Option String
  debuginfo : String
  deriving DecidableEq, Repr

/-- The list of errors with its mark, the context string that all calls share, and what has been
recorded in lists which converters that were called without one have made for themselves. -/
structure ConverterErrors where
  errors : List ConverterError
  lastStoredErrorCount : ℕ
  context : String
  elsewhere : List ConverterError

abbrev Converter : Type → Type := StateT ConverterErrors (Except JsException)

namespace Converter

def push (e : ConverterError) : Converter Unit :=
  modify fun c => { c with errors := c.errors ++ [e] }

def storeState : Converter Unit :=
  modify fun c => { c with lastStoredErrorCount := c.errors.length }

def hasNewErrors : Converter Bool := do
  let c ← get
  return c.errors.length > c.lastStoredErrorCount

/-- The answer is the one of strict mode; the error on top says which object could not be made. -/
def validateResult (encoding : Bool) (objectName : String) : Converter Bool := do
  if ← hasNewErrors then
    let action := if encoding then "encoding" else "decoding"
    modify fun c => { c with
      errors := ⟨none, none, "Errors while " ++ action ++ " " ++ objectName⟩ :: c.errors }
    return false
  else
    return true

def addContext (name : Option String) (objectName : String) : Converter Unit :=
  modify fun c => { c with
    context := (if c.context = "" then "" else c.context ++ "::") ++ name.getD objectName }

/-- The place of a property, with the context in front. -/
def location (propertyName : String) : Converter String := do
  let c ← get
  return if c.context = "" then propertyName else c.context ++ "::" ++ propertyName

def pushAt (errortype : ConverterErrorType) (propertyName debuginfo : String) : Converter Unit := do
  push ⟨some errortype, some (← location propertyName), debuginfo⟩

/-- An error whose place is the context alone. -/
def pushHere (errortype : ConverterErrorType) (debuginfo : String) : Converter Unit := do
  push ⟨some errortype, some (← get).context, debuginfo⟩

def mismatch (expectedType : ExpectedType) (property : JsValue) : String :=
  "expected type was " ++ expectedType.text ++ ", effective type is " ++ property.typeof

/-- The types which `validateParam` lets pass for a property that is neither null nor undefined. -/
def fits (expectedType : ExpectedType) (property : JsValue) : Bool :=
  match expectedType, property with
  | .boolean, .boolean _ => true
  | .number, .number _ => true
  | .string, .string _ => true
  | .date, .date _ => true
  | .uint8Array, .bytes _ => true
  | .object, .bytes _ => true
  | .object, .date _ => true
  | .object, .array _ => true
  | .object, .object _ => true
  | _, _ => false

/-- An error unless the member is optional. -/
def unlessOptional (optional : Bool) (error : Converter Unit) : Converter Unit :=
  if optional then pure () else error

def validateParam (data : JsValue) (propertyName : String) (expectedType : ExpectedType)
    (optional : Bool) : Converter Bool :=
  match data with
  | .null => do
      unlessOptional optional (pushAt .notAnObject propertyName
        "data type is null but expected an object")
      return false
  | .undefined | .boolean _ | .number _ | .string _ => do
      unlessOptional optional (pushAt .notAnObject propertyName
        ("data type is " ++ data.typeof ++ " but expected an object"))
      return false
  | .object get =>
      match get propertyName with
      | .undefined => do
          unlessOptional optional (pushAt .propertyMissing propertyName "property missing")
          return false
      | .null =>
          if expectedType = .null then return true
          else do
            unlessOptional optional (pushAt .propertyNullOrUndefined propertyName
              "property null or undefined")
            return false
      | property =>
          if fits expectedType property then return true
          else do
            pushAt .propertyTypeMismatch propertyName (mismatch expectedType property)
            return false
  | .bytes _ | .date _ | .array _ => do
      unlessOptional optional (pushAt .propertyMissing propertyName "property missing")
      return false

/-- `undefined` that is not optional gets a second error below the first. -/
def validateParamType (property : JsValue) (propertyName : String) (expectedType : ExpectedType)
    (optional : Bool) : Converter Bool := do
  if property.isUndefined && !optional then
    pushAt .propertyMissing propertyName "property missing"
    pushAt .propertyTypeMismatch propertyName (mismatch expectedType property)
    return false
  let fits := match expectedType with
    | .uint8Array => fits .uint8Array property
    | .date => fits .date property
    | .null => property.typeof = "object"
    | .flag _ => false
    | expectedType => property.typeof = expectedType.text
  if fits then return true
  pushAt .propertyTypeMismatch propertyName (mismatch expectedType property)
  return false

end Converter

end Esnacc.Ts
