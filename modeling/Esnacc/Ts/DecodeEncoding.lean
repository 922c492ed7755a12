import Esnacc.Ts.JsonText

/-!
`asn1Decode` of TSROSEBase.ts: an argument is decoded in the encoding of the session, or in the one
it seems to have while that is not known.
-/

namespace Esnacc.Ts

open JsonText

inductive EASN1TransportEncoding
  | BER
  | JSON
  deriving DecidableEq, Repr

/-- What is decoded: octets from the transport, a sequence of asn1ts with the octets it has been
decoded from, or a value; a JSON text is a value that is a string. -/
inductive Argument
  | octets (data : List Byte)
  | sequence (valueBeforeDecodeView : List Byte)
  | value (value : Json)
  | undefined

/-- What is handed to `fromJSON`. -/
inductive JsonData
  | value (value : Json)
  | sequence (valueBeforeDecodeView : List Byte)

/-- A converter: `readObject` is what its `fromJSON` makes of prepared data, `readSequence` what it
makes of a sequence of asn1ts as if that were such data. -/
structure IConverter (α : Type) where
  readObject : Json → Option α
  readSequence : List Byte → Option α
  fromBER : List Byte → Option α

namespace Json

def typeof : Json → String
  | null | array _ | object _ => "object"
  | boolean _ => "boolean"
  | number _ => "number"
  | string _ => "string"

/-- A number is a zero if all its digits before the exponent are. -/
def truthy : Json → Bool
  | null => false
  | boolean b => b
  | number literal =>
      (literal.takeWhile fun unit => unit ≠ 0x65 ∧ unit ≠ 0x45).any fun unit =>
        0x31 ≤ unit ∧ unit ≤ 0x39
  | string text => !text.isEmpty
  | array _ | object _ => true

end Json

/-- What stands between the first and the last unit of a text that begins with a bracket. -/
def withoutBrackets (text : JsText) : JsText :=
  if text.head? = some 0x5B then substring text 1 (text.length - 1) else text

/-- `prepareJSONData` of TSConverter; `none` if there is nothing or no JSON. -/
def prepareJSONData : Json → Option Json
  | .null => none
  | .string text => parse (withoutBrackets text)
  | data => some data

/-- Without the envelope of UCWeb. -/
def withoutEnvelope : Json → Json
  | .string text => .string (withoutBrackets text)
  | .array [element] => element
  | data => data

section

variable {α : Type} (converter : IConverter α)

namespace IConverter

def fromJSON : JsonData → Option α
  | .value data => (prepareJSONData data).bind converter.readObject
  | .sequence view => converter.readSequence view

/-- `if (jsonData)`, and what is done then. -/
def tryJSON : JsonData → Option α
  | .value data => if data.truthy then converter.fromJSON (.value data) else none
  | .sequence view => converter.fromJSON (.sequence view)

end IConverter

/-- A value is JSON data if it is a string or an object. -/
def dataOfValue (value : Json) : Option JsonData :=
  if value.typeof = "string" ∨ value.typeof = "object" then some (.value value) else none

/-- The data for one of the two decoders, before an envelope is taken off. -/
def guessData : Argument → Option JsonData × Option (List Byte)
  | .octets data =>
      if data.head? = some 123 ∨ data.head? = some 91 then
        (some (.value (.string (textDecode data))), none)
      else (none, some data)
  | .sequence view => (none, some view)
  | .value value => (dataOfValue value, none)
  | .undefined => (none, none)

/-- `jsonData` and `berData`. -/
def chooseData (argument : Argument) (encoding : Option EASN1TransportEncoding) :
    Option JsonData × Option (List Byte) :=
  match encoding with
  | none =>
      match guessData argument with
      | (some (.value value), berData) => (some (.value (withoutEnvelope value)), berData)
      | data => data
  | some .BER =>
      match argument with
      | .octets data => (none, some data)
      | .sequence view => (none, some view)
      | .value _ | .undefined => (none, none)
  | some .JSON =>
      match argument with
      | .octets data => (some (.value (.string (toText data))), none)
      | .sequence view => (some (.sequence view), none)
      | .value value => (dataOfValue value, none)
      | .undefined => (none, none)

/-- `asn1Decode`: the decoded object, and the encoding in the context. -/
def asn1Decode (argument : Argument) (encoding : Option EASN1TransportEncoding) :
    Option α × Option EASN1TransportEncoding :=
  let (jsonData, berData) := chooseData argument encoding
  match jsonData.bind converter.tryJSON with
  | some result => (some result, some .JSON)
  | none =>
      match berData.bind converter.fromBER with
      | some result => (some result, some .BER)
      | none => (none, encoding)

/-- The encodings an argument can have been written in. -/
def IsEncodedIn : Argument → EASN1TransportEncoding → Prop
  | .octets data, .BER => (converter.fromBER data).isSome
  | .octets data, .JSON => (parse (textDecode data)).isSome
  | .sequence _, .BER => True
  | .value (.string text), .JSON => (parse text).isSome
  | .value _, .JSON => True
  | _, _ => False

/-- The encoding does not have to be known. -/
def Agree (argument : Argument) (encoding : EASN1TransportEncoding) : Prop :=
  asn1Decode converter argument (some encoding) = asn1Decode converter argument none

/-- The converter reads the argument. Octets are BER that does not begin with a brace or a
bracket; a value is a text or an object, and where an envelope is taken off once more, the
converter makes the same of it. -/
def ReadsAlike : Argument → EASN1TransportEncoding → Prop
  | .octets data, .BER => (converter.fromBER data).isSome ∧ data.head? ≠ some 123 ∧
      data.head? ≠ some 91
  | .sequence view, .BER => (converter.fromBER view).isSome
  | .value value, .JSON =>
      (value.typeof = "string" ∨ value.typeof = "object") ∧
        (converter.tryJSON (.value value)).isSome ∧
        converter.tryJSON (.value (withoutEnvelope value)) = converter.tryJSON (.value value)
  | _, _ => False

end

/-! ### What is decoded -/

variable {α : Type} {converter : IConverter α}

theorem asn1Decode_JSON {data : JsonData} {argument : Argument}
    {encoding : Option EASN1TransportEncoding}
    (h : chooseData argument encoding = (some data, none)) :
    asn1Decode converter argument encoding =
      (converter.tryJSON data,
        if (converter.tryJSON data).isSome then some .JSON else encoding) := by
  rw [asn1Decode, h]
  simp only [Option.bind_some, Option.bind_none]
  cases converter.tryJSON data <;> rfl

theorem asn1Decode_BER {data : List Byte} {argument : Argument}
    {encoding : Option EASN1TransportEncoding}
    (h : chooseData argument encoding = (none, some data)) :
    asn1Decode converter argument encoding =
      (converter.fromBER data,
        if (converter.fromBER data).isSome then some .BER else encoding) := by
  rw [asn1Decode, h]
  simp only [Option.bind_some, Option.bind_none]
  cases converter.fromBER data <;> rfl

/-- Two results with the same encoding: something is decoded, by decoders of one kind. -/
theorem results_eq_iff {x y : Option α} {known guessed : EASN1TransportEncoding} :
    ((x, some known) : Option α × _) = (y, if y.isSome then some guessed else none) ↔
      x.isSome ∧ y = x ∧ guessed = known := by
  cases y with
  | none =>
      refine iff_of_false (fun h => ?_) fun h => ?_
      · cases (Prod.mk.inj h).2
      · rw [← h.2.1] at h
        cases h.1
  | some b =>
      rw [Option.isSome_some, if_pos rfl, Prod.mk.injEq, Option.some.injEq]
      constructor
      · rintro ⟨rfl, rfl⟩
        exact ⟨rfl, rfl, rfl⟩
      · rintro ⟨-, h, rfl⟩
        exact ⟨h.symm, rfl⟩

theorem tryJSON_toText {a b : Byte} (data : List Byte) :
    converter.tryJSON (.value (.string (toText (a :: b :: data)))) = none := by
  have hhead : (toText (a :: b :: data)).head? ≠ some 0x5B := by
    cases htext : toText (a :: b :: data) with
    | nil => exact fun h => by cases h
    | cons unit rest =>
        have hdigit := isDigit_iff.mp (head_toText htext)
        rw [List.head?_cons, Ne, Option.some.injEq]
        omega
  rw [IConverter.tryJSON, IConverter.fromJSON, prepareJSONData, withoutBrackets,
    if_neg hhead, parse_toText, Option.bind_none, ite_self]

/-- A brace or a bracket alone is no JSON. -/
theorem tryJSON_single {a : Byte} (h : a = 123 ∨ a = 91) :
    converter.tryJSON (.value (withoutEnvelope (.string (textDecode [a])))) = none := by
  have hparse : ∀ b : Byte, b = 123 ∨ b = 91 →
      (parse (withoutBrackets (withoutBrackets (textDecode [b])))).isNone = true := by
    decide +kernel
  rw [withoutEnvelope, IConverter.tryJSON, IConverter.fromJSON, prepareJSONData,
    Option.isNone_iff_eq_none.mp (hparse a h), Option.bind_none, ite_self]

/-! ### When both decode the same -/

theorem chooseData_octets {data : List Byte} :
    chooseData (.octets data) none =
      if data.head? = some 123 ∨ data.head? = some 91 then
        (some (.value (withoutEnvelope (.string (textDecode data)))), none)
      else (none, some data) := by
  rw [chooseData, guessData]
  split_ifs <;> rfl

/-- Octets that hold JSON are not decoded while JSON is expected. -/
theorem not_agree_octets_JSON (data : List Byte) : ¬Agree converter (.octets data) .JSON := by
  intro h
  rw [Agree, asn1Decode_JSON rfl, ite_self] at h
  by_cases hhead : data.head? = some 123 ∨ data.head? = some 91
  · have hchoose := @chooseData_octets data
    rw [if_pos hhead] at hchoose
    rw [asn1Decode_JSON hchoose, results_eq_iff] at h
    obtain ⟨hsome, heq, -⟩ := h
    cases data with
    | nil => exact hhead.elim (fun h => by cases h) fun h => by cases h
    | cons a data =>
        cases data with
        | nil =>
            rw [List.head?_cons, Option.some.injEq, Option.some.injEq] at hhead
            rw [← heq, tryJSON_single hhead] at hsome
            cases hsome
        | cons b data =>
            rw [tryJSON_toText] at hsome
            cases hsome
  · have hchoose := @chooseData_octets data
    rw [if_neg hhead] at hchoose
    rw [asn1Decode_BER hchoose, results_eq_iff] at h
    cases h.2.2

theorem agree_octets_BER (data : List Byte) :
    Agree converter (.octets data) .BER ↔
      (converter.fromBER data).isSome ∧ data.head? ≠ some 123 ∧ data.head? ≠ some 91 := by
  rw [Agree, asn1Decode_BER rfl, ite_self, ← not_or]
  have hchoose := @chooseData_octets data
  by_cases hhead : data.head? = some 123 ∨ data.head? = some 91
  · rw [if_pos hhead] at hchoose
    rw [asn1Decode_JSON hchoose, results_eq_iff]
    exact iff_of_false (fun h => by cases h.2.2) fun h => h.2 hhead
  · rw [if_neg hhead] at hchoose
    rw [asn1Decode_BER hchoose, results_eq_iff]
    exact ⟨fun h => ⟨h.1, hhead⟩, fun h => ⟨h.1, rfl, rfl⟩⟩

theorem agree_sequence (view : List Byte) :
    Agree converter (.sequence view) .BER ↔ (converter.fromBER view).isSome := by
  rw [Agree, asn1Decode_BER rfl, ite_self, asn1Decode_BER rfl, results_eq_iff]
  exact ⟨fun h => h.1, fun h => ⟨h, rfl, rfl⟩⟩

theorem agree_value (value : Json) :
    Agree converter (.value value) .JSON ↔
      (value.typeof = "string" ∨ value.typeof = "object") ∧
        (converter.tryJSON (.value value)).isSome ∧
        converter.tryJSON (.value (withoutEnvelope value)) =
          converter.tryJSON (.value value) := by
  by_cases hdata : value.typeof = "string" ∨ value.typeof = "object"
  · have hknown : chooseData (.value value) (some .JSON) = (some (.value value), none) := by
      rw [chooseData, dataOfValue, if_pos hdata]
    have hguess : chooseData (.value value) none =
        (some (.value (withoutEnvelope value)), none) := by
      rw [chooseData, guessData, dataOfValue, if_pos hdata]
    rw [Agree, asn1Decode_JSON hknown, ite_self, asn1Decode_JSON hguess, results_eq_iff]
    exact ⟨fun h => ⟨hdata, h.1, h.2.1⟩, fun h => ⟨h.2.1, h.2.2, rfl⟩⟩
  · have hknown : chooseData (.value value) (some .JSON) = (none, none) := by
      rw [chooseData, dataOfValue, if_neg hdata]
    have hguess : chooseData (.value value) none = (none, none) := by
      rw [chooseData, guessData, dataOfValue, if_neg hdata]
    refine iff_of_false (fun h => ?_) fun h => hdata h.1
    rw [Agree, asn1Decode, hknown, asn1Decode, hguess] at h
    cases (Prod.mk.inj h).2

/-- The encoding does not have to be known if and only if the argument is not a text in octets,
has not the first octet of one, and is read in the same way with one bracket more or less. -/
theorem agree_iff {argument : Argument} {encoding : EASN1TransportEncoding}
    (h : IsEncodedIn converter argument encoding) :
    Agree converter argument encoding ↔ ReadsAlike converter argument encoding := by
  cases argument with
  | octets data =>
      cases encoding with
      | BER => exact agree_octets_BER data
      | JSON => exact iff_of_false (not_agree_octets_JSON data) id
  | sequence view =>
      cases encoding with
      | BER => exact agree_sequence view
      | JSON => exact h.elim
  | value value =>
      cases encoding with
      | BER => cases value <;> exact h.elim
      | JSON => exact agree_value value
  | undefined => cases encoding <;> exact h.elim

/-- A converter that reads every object. -/
def anyObject : IConverter ℕ where
  readObject
    | .object members => some members.length
    | _ => none
  readSequence _ := none
  fromBER data := if data.head? = some 0xA1 then some data.length else none

/-- A text that is an object, with white space around it. -/
theorem agree_text : Agree anyObject
    (.value (.string (unitsOfString " \x7b \"invoke\" : 1 \x7d\n"))) .JSON := by
  have htext : IsEncodedIn anyObject
      (.value (.string (unitsOfString " \x7b \"invoke\" : 1 \x7d\n"))) .JSON := by
    show (parse _).isSome = true
    decide +kernel
  refine (agree_iff htext).mpr ⟨.inl rfl, ?_, ?_⟩
  · decide +kernel
  · decide +kernel

/-- The octets of such a text. -/
theorem not_agree : ¬ ∀ (α : Type) (converter : IConverter α) (argument : Argument)
    (encoding : EASN1TransportEncoding), IsEncodedIn converter argument encoding →
      Agree converter argument encoding := by
  intro h
  have hoctets := h ℕ anyObject (.octets [0x7B, 0x7D]) .JSON
    (by decide +kernel : (parse (textDecode [0x7B, 0x7D])).isSome = true)
  have hguess : (asn1Decode anyObject (.octets [0x7B, 0x7D]) none).1 = some 0 := by
    decide +kernel
  have hknown : (asn1Decode anyObject (.octets [0x7B, 0x7D]) (some .JSON)).1 = none := by
    decide +kernel
  rw [hoctets, hguess] at hknown
  cases hknown

end Esnacc.Ts
