import Esnacc.Runtime.OptionalParamJson
import Esnacc.Ts.Base64Agreement

/-!
`EAsnOptionalParametersConverter`: optional parameters as the properties of one object. What
becomes of them in the object of the other side and in the object of the C++ runtime.
-/

namespace Esnacc.Ts

open SJson

/-- A choice in which one alternative is set. -/
inductive IAsnOptionalParamChoice
  | integerdata (value : ℤ)
  | stringdata (value : List Char)
  | binarydata (value : List Byte)
  deriving DecidableEq

structure IAsnOptionalParam where
  key : List Char
  value : IAsnOptionalParamChoice
  deriving DecidableEq

/-- What a property is set to; binary data is an object with the base64 text. -/
inductive IUCServerOptionalParam
  | number (value : ℤ)
  | string (value : List Char)
  | binary (binarydata : String)
  deriving DecidableEq

/-! ### Objects of JavaScript -/

/-- The own properties of an object, in the order in which they were made. -/
abbrev PlainObject := List (List Char × IUCServerOptionalParam)

/-- `__proto__` is not an own property: setting it sets the prototype, or does nothing. -/
def protoKey : List Char := "__proto__".toList

def typeKey : List Char := "_type".toList

/-- `object[key] = value`. -/
def assign (object : PlainObject) (key : List Char) (value : IUCServerOptionalParam) :
    PlainObject :=
  if key = protoKey then object
  else if object.any fun property => property.1 = key then
    object.map fun property => if property.1 = key then (key, value) else property
  else object ++ [(key, value)]

/-- The number of an array index, which is written without leading zeros and is below
2^32 - 1. -/
def arrayIndex (key : List Char) : Option ℕ :=
  let index := key.foldl (fun n c => 10 * n + (c.toNat - 48)) 0
  if key ≠ [] ∧ key.all Char.isDigit ∧ (key.head? = some '0' → key.length = 1) ∧
      index < 4294967295 then some index
  else none

/-- Array indices come first, and go up; the others are as they were made. -/
def propertyRank (key : List Char) : ℕ := (arrayIndex key).getD 4294967295

/-- The order of `for (const key in object)`. -/
def enumerate (object : PlainObject) : PlainObject :=
  object.insertionSort fun property property' =>
    propertyRank property.1 ≤ propertyRank property'.1

/-! ### The converter -/

def property (p : IAsnOptionalParam) : List Char × IUCServerOptionalParam :=
  (p.key,
    match p.value with
    | .integerdata value => .number value
    | .stringdata value => .string value
    | .binarydata value => .binary (encode64 value))

/-- `toJSON`, in a context with `bUCServerOptionalParams`. -/
def toJSON (bAddTypes : Bool) (obj : List IAsnOptionalParam) : PlainObject :=
  obj.foldl (fun result element => assign result (property element).1 (property element).2)
    (if bAddTypes then assign [] typeKey (.string "IUCServerOptionalParameters".toList) else [])

/-- The loop of `fromJSON`: the parameters, and the keys in the errors. The exception is the one
of `decode64`. -/
def decodeProperties : PlainObject → Option (List IAsnOptionalParam × List (List Char))
  | [] => some ([], [])
  | (key, value) :: rest =>
      if key = typeKey then decodeProperties rest
      else
        match value with
        | .number value =>
            (decodeProperties rest).map fun r => (⟨key, .integerdata value⟩ :: r.1, r.2)
        | .string value =>
            (decodeProperties rest).map fun r => (⟨key, .stringdata value⟩ :: r.1, r.2)
        | .binary binarydata =>
            if binarydata ≠ "" then
              match decode64 binarydata with
              | none => none
              | some value =>
                  (decodeProperties rest).map fun r => (⟨key, .binarydata value⟩ :: r.1, r.2)
            else (decodeProperties rest).map fun r => (r.1, key :: r.2)

/-- `fromJSON`: what it returns, and the parameters. -/
def fromJSON (bLaxDecoding : Bool) (data : PlainObject) : Option (Bool × List IAsnOptionalParam) :=
  (decodeProperties (enumerate data)).map fun r => (bLaxDecoding || r.2.isEmpty, r.1)

/-! ### The other runtime -/

/-- A number as the JSON library reads it; `none` is a double. -/
def intValueOf (n : ℤ) : Option Value :=
  if -2 ^ 63 ≤ n ∧ n < 2 ^ 63 then some (.intValue (BitVec.ofInt 64 n))
  else if 0 ≤ n ∧ n < 2 ^ 64 then some (.uintValue (BitVec.ofInt 64 n))
  else none

/-- A string that the JSON library can hold. -/
def stringValueOf (text : List Char) : Option Value :=
  if h : (Utf8.encode text).length ≤ maxStringLength then
    some (.stringValue ⟨Utf8.encode text, h⟩)
  else none

def valueOf : IUCServerOptionalParam → Option Value
  | .number value => intValueOf value
  | .string value => stringValueOf value
  | .binary binarydata => (stringValueOf binarydata.toList).map fun v =>
      .objectValue (Value.setMember [] (Value.name "binarydata") v)

/-- The members of the object that is read, one after the other. -/
def membersOf (object : PlainObject) : Option (List (List BitString.Octet × Value)) :=
  object.foldlM (fun members property =>
    (valueOf property.2).map fun v => Value.setMember members (Utf8.encode property.1) v) []

/-- The wide characters of a text. -/
def wide (text : List Char) : UTF8String := text.map fun c => BitVec.ofNat 32 c.toNat

/-- The conversion reads UTF-8, and nothing else. -/
def ReadsUtf8 (conv : StringConvert) : Prop :=
  ∀ s w, conv.utf8ToWide s = some w ↔ ∃ t, Utf8.encode t = s ∧ wide t = w

def IAsnOptionalParamChoice.content : IAsnOptionalParamChoice → Content
  | integerdata value => .integer value
  | stringdata value => .text (wide value)
  | binarydata value => .octets value

def IAsnOptionalParam.meaning (p : IAsnOptionalParam) : UTF8String × Content :=
  (wide p.key, p.value.content)

/-- `JDec` accepts the object, and what it holds then means the same. -/
def Accepted (conv : StringConvert) (object : PlainObject) (ps : List IAsnOptionalParam) : Prop :=
  ∃ members qs, membersOf object = some members ∧
    AsnOptionalParameters.jDec conv (.objectValue members) = .ok (some qs) ∧
    (qs.map AsnOptionalParam.meaning).Perm (ps.map IAsnOptionalParam.meaning)

/-- The parameters come back in TypeScript, in their order, and the C++ side takes them. -/
def Survive (conv : StringConvert) (bAddTypes bLaxDecoding : Bool)
    (ps : List IAsnOptionalParam) : Prop :=
  fromJSON bLaxDecoding (toJSON bAddTypes ps) = some (true, ps) ∧
    Accepted conv (toJSON bAddTypes ps) ps

/-! ### The condition -/

/-- The value is not taken for a missing one. -/
def IAsnOptionalParamChoice.Full (choice : IAsnOptionalParamChoice) : Prop :=
  choice ≠ .binarydata []

/-- A value of the C++ runtime. -/
def IAsnOptionalParamChoice.Plain : IAsnOptionalParamChoice → Prop
  | integerdata value => -2 ^ 31 ≤ value ∧ value < 2 ^ 31
  | stringdata value => '\x00' ∉ value ∧ (Utf8.encode value).length ≤ maxStringLength
  | binarydata value => (Utf8.encode (encode64 value).toList).length ≤ maxStringLength

/-- The key can be the name of a member, and the value is one of the C++ runtime. -/
def IAsnOptionalParam.Legible (p : IAsnOptionalParam) : Prop :=
  ('\x00' ∉ p.key ∧ (Utf8.encode p.key).length < 2 ^ 30) ∧ p.value.Plain

/-- The key becomes a property, which is not taken for the type. -/
def IAsnOptionalParam.Own (p : IAsnOptionalParam) : Prop :=
  p.key ≠ protoKey ∧ p.key ≠ typeKey

/-- Keys that are array indices come first, and go up. -/
def InOrder (ps : List IAsnOptionalParam) : Prop :=
  (ps.map IAsnOptionalParam.key).Pairwise fun key key' => propertyRank key ≤ propertyRank key'

/-! ### The object -/

theorem assign_fresh {object : PlainObject} {key : List Char} (value : IUCServerOptionalParam)
    (hproto : key ≠ protoKey) (hfresh : key ∉ object.map Prod.fst) :
    assign object key value = object ++ [(key, value)] := by
  have hany : ¬ (object.any fun property => property.1 = key) = true := by
    rw [List.any_eq_true]
    rintro ⟨property, hproperty, hkey⟩
    exact hfresh (of_decide_eq_true hkey ▸ List.mem_map_of_mem hproperty)
  rw [assign, if_neg hproto, if_neg hany]

/-- `__proto__` never becomes a property. -/
theorem proto_notMem_assign {object : PlainObject} (h : protoKey ∉ object.map Prod.fst)
    (key : List Char) (value : IUCServerOptionalParam) :
    protoKey ∉ (assign object key value).map Prod.fst := by
  rw [assign]
  split_ifs with hproto hmem
  · exact h
  · rw [List.map_map]
    intro hin
    obtain ⟨property, hproperty, heq⟩ := List.mem_map.mp hin
    rw [Function.comp_apply] at heq
    split_ifs at heq with hkey
    · exact hproto heq
    · exact h (heq ▸ List.mem_map_of_mem hproperty)
  · rw [List.map_append, List.mem_append, not_or]
    exact ⟨h, fun hin => hproto (List.mem_singleton.mp hin).symm⟩

theorem proto_notMem_toJSON (bAddTypes : Bool) (ps : List IAsnOptionalParam) :
    protoKey ∉ (toJSON bAddTypes ps).map Prod.fst := by
  have hfold (object : PlainObject) (h : protoKey ∉ object.map Prod.fst) :
      protoKey ∉ (ps.foldl (fun result element =>
        assign result (property element).1 (property element).2) object).map Prod.fst := by
    induction ps generalizing object with
    | nil => exact h
    | cons p ps ih => exact ih _ (proto_notMem_assign h _ _)
  refine hfold _ ?_
  cases bAddTypes <;> decide

/-- The object that the parameters are added to. -/
def typeProperties (bAddTypes : Bool) : PlainObject :=
  if bAddTypes then [(typeKey, .string "IUCServerOptionalParameters".toList)] else []

theorem toJSON_eq {ps : List IAsnOptionalParam} (hkeys : (ps.map IAsnOptionalParam.key).Nodup)
    (hps : ∀ p ∈ ps, p.Own) (bAddTypes : Bool) :
    toJSON bAddTypes ps = typeProperties bAddTypes ++ ps.map property := by
  have hfold (object : PlainObject) (hfresh : ∀ p ∈ ps, p.key ∉ object.map Prod.fst) :
      ps.foldl (fun result element =>
        assign result (property element).1 (property element).2) object =
        object ++ ps.map property := by
    induction ps generalizing object with
    | nil => exact (List.append_nil _).symm
    | cons p ps ih =>
        rw [List.forall_mem_cons] at hps hfresh
        obtain ⟨hnew, hrest⟩ := List.nodup_cons.mp hkeys
        have hassign : assign object (property p).1 (property p).2 = object ++ [property p] :=
          assign_fresh _ hps.1.1 hfresh.1
        rw [List.foldl_cons, hassign, ih hrest hps.2, List.map_cons, List.append_assoc,
          List.singleton_append]
        intro q hq hin
        rw [List.map_append, List.mem_append] at hin
        rcases hin with hin | hin
        · exact hfresh.2 q hq hin
        · have hsame : q.key = p.key := List.mem_singleton.mp hin
          exact hnew (hsame ▸ List.mem_map_of_mem hq)
  rw [toJSON, hfold]
  · cases bAddTypes <;> rfl
  · intro p hp hin
    cases bAddTypes with
    | false => cases hin
    | true => exact (hps p hp).2 (List.mem_singleton.mp hin)

/-! ### What comes back in TypeScript -/

/-- What a property is read as. -/
def ReadAs : IUCServerOptionalParam → IAsnOptionalParamChoice → Prop
  | .number value, choice => choice = .integerdata value
  | .string value, choice => choice = .stringdata value
  | .binary binarydata, choice =>
      binarydata ≠ "" ∧ ∃ value, decode64 binarydata = some value ∧ choice = .binarydata value

/-- Every parameter is a property, other than the one of the type. -/
theorem mem_decodeProperties {object : PlainObject}
    {r : List IAsnOptionalParam × List (List Char)} (h : decodeProperties object = some r) :
    (r.1.map IAsnOptionalParam.key).Sublist (object.map Prod.fst) ∧
      ∀ p ∈ r.1, p.key ≠ typeKey ∧ ∃ value, (p.key, value) ∈ object ∧ ReadAs value p.value := by
  induction object generalizing r with
  | nil =>
      cases h
      exact ⟨.slnil, fun p hp => absurd hp List.not_mem_nil⟩
  | cons entry rest ih =>
      obtain ⟨key, value⟩ := entry
      have hskip {ps errors} (hr : decodeProperties rest = some (ps, errors)) :
          (ps.map IAsnOptionalParam.key).Sublist (key :: rest.map Prod.fst) ∧
          ∀ p ∈ ps, p.key ≠ typeKey ∧
            ∃ v, (p.key, v) ∈ (key, value) :: rest ∧ ReadAs v p.value := by
        refine ⟨(ih hr).1.cons _, fun p hp => ?_⟩
        obtain ⟨htype, v, hv, hread⟩ := (ih hr).2 p hp
        exact ⟨htype, v, List.mem_cons_of_mem _ hv, hread⟩
      have htake {r choice} (htype : key ≠ typeKey) (hread : ReadAs value choice)
          (hr : decodeProperties rest = some r) :
          ((⟨key, choice⟩ :: r.1).map IAsnOptionalParam.key).Sublist (key :: rest.map Prod.fst) ∧
          ∀ p ∈ (⟨key, choice⟩ : IAsnOptionalParam) :: r.1, p.key ≠ typeKey ∧
            ∃ v, (p.key, v) ∈ (key, value) :: rest ∧ ReadAs v p.value := by
        refine ⟨(ih hr).1.cons_cons _, fun p hp => ?_⟩
        rcases List.mem_cons.mp hp with rfl | hp
        · exact ⟨htype, value, List.mem_cons_self, hread⟩
        · exact (hskip hr).2 p hp
      rw [decodeProperties.eq_def] at h
      dsimp only at h
      split at h
      · exact hskip h
      · next htype =>
          cases value with
          | number value =>
              obtain ⟨r, hr, rfl⟩ := Option.map_eq_some_iff.mp h
              exact htake htype rfl hr
          | string value =>
              obtain ⟨r, hr, rfl⟩ := Option.map_eq_some_iff.mp h
              exact htake htype rfl hr
          | binary binarydata =>
              dsimp only at h
              split at h
              · next hfull =>
                  cases hdecode : decode64 binarydata with
                  | none =>
                      rw [hdecode] at h
                      cases h
                  | some value =>
                      rw [hdecode] at h
                      obtain ⟨r, hr, rfl⟩ := Option.map_eq_some_iff.mp h
                      exact htake htype ⟨hfull, value, hdecode, rfl⟩ hr
              · obtain ⟨r, hr, rfl⟩ := Option.map_eq_some_iff.mp h
                exact hskip hr

theorem encode64_ne_empty {value : List Byte} (h : value ≠ []) : encode64 value ≠ "" := by
  intro hempty
  have hdecode := decode64_encode64 value
  rw [hempty] at hdecode
  exact h (Option.some.inj (hdecode.symm.trans (by rfl)))

theorem decodeProperties_property {ps : List IAsnOptionalParam}
    (h : ∀ p ∈ ps, p.key ≠ typeKey ∧ p.value.Full) :
    decodeProperties (ps.map property) = some (ps, []) := by
  induction ps with
  | nil => rfl
  | cons p ps ih =>
      rw [List.forall_mem_cons] at h
      obtain ⟨key, value⟩ := p
      rw [List.map_cons, property, decodeProperties.eq_def]
      dsimp only
      rw [if_neg h.1.1]
      cases value with
      | integerdata value =>
          dsimp only
          rw [ih h.2]
          rfl
      | stringdata value =>
          dsimp only
          rw [ih h.2]
          rfl
      | binarydata value =>
          dsimp only
          have hne : value ≠ [] := fun he => h.1.2 (congrArg _ he)
          rw [if_pos (encode64_ne_empty hne), decode64_encode64, ih h.2]
          rfl

/-- The properties are those of the parameters, and the one of the type. -/
theorem mem_toJSON {bAddTypes : Bool} {ps : List IAsnOptionalParam} {entry}
    (h : entry ∈ toJSON bAddTypes ps) (htype : entry.1 ≠ typeKey) :
    ∃ p ∈ ps, entry = property p := by
  have hassign {object key value} (hin : entry ∈ assign object key value) :
      entry ∈ object ∨ entry = (key, value) := by
    rw [assign] at hin
    split_ifs at hin
    · exact .inl hin
    · obtain ⟨old, hold, rfl⟩ := List.mem_map.mp hin
      split_ifs
      · exact .inr rfl
      · exact .inl hold
    · exact (List.mem_append.mp hin).imp_right List.mem_singleton.mp
  have hfold {ps : List IAsnOptionalParam} {object : PlainObject}
      (hin : entry ∈ ps.foldl (fun result element =>
        assign result (property element).1 (property element).2) object) :
      entry ∈ object ∨ ∃ p ∈ ps, entry = property p := by
    induction ps generalizing object with
    | nil => exact .inl hin
    | cons p ps ih =>
        rcases ih hin with hin | ⟨q, hq, heq⟩
        · exact (hassign hin).imp_right fun heq => ⟨p, List.mem_cons_self, heq⟩
        · exact .inr ⟨q, List.mem_cons_of_mem _ hq, heq⟩
  refine (hfold h).resolve_left fun hin => ?_
  cases bAddTypes with
  | false => exact absurd hin List.not_mem_nil
  | true => exact htype (congrArg Prod.fst (List.mem_singleton.mp hin))

theorem inOrder_of_fromJSON {ps : List IAsnOptionalParam} {bAddTypes bLaxDecoding : Bool}
    (h : fromJSON bLaxDecoding (toJSON bAddTypes ps) = some (true, ps)) :
    InOrder ps ∧ ∀ p ∈ ps, p.Own ∧ p.value.Full := by
  obtain ⟨r, hr, heq⟩ := Option.map_eq_some_iff.mp h
  have hps : r.1 = ps := congrArg Prod.snd heq
  obtain ⟨hsub, hall⟩ := mem_decodeProperties hr
  rw [hps] at hsub hall
  have hsorted : ((enumerate (toJSON bAddTypes ps)).map Prod.fst).Pairwise fun key key' =>
      propertyRank key ≤ propertyRank key' := by
    rw [List.pairwise_map]
    have htotal : Std.Total fun entry entry' : List Char × IUCServerOptionalParam =>
        propertyRank entry.1 ≤ propertyRank entry'.1 := ⟨fun _ _ => le_total _ _⟩
    have htrans : IsTrans (List Char × IUCServerOptionalParam) fun entry entry' =>
        propertyRank entry.1 ≤ propertyRank entry'.1 := ⟨fun _ _ _ => le_trans⟩
    exact List.pairwise_insertionSort _ _
  refine ⟨hsorted.sublist hsub, fun p hp => ?_⟩
  obtain ⟨htype, value, hmem, hread⟩ := hall p hp
  have hin : (p.key, value) ∈ toJSON bAddTypes ps := (List.perm_insertionSort _ _).mem_iff.mp hmem
  refine ⟨⟨fun hproto => ?_, htype⟩, fun hempty => ?_⟩
  · exact proto_notMem_toJSON bAddTypes ps (hproto ▸ List.mem_map_of_mem hin)
  · obtain ⟨q, hq, heq⟩ := mem_toJSON hin htype
    obtain ⟨key, choice⟩ := q
    have hvalue : value = (property ⟨key, choice⟩).2 := congrArg Prod.snd heq
    rw [hvalue, hempty] at hread
    cases choice with
    | integerdata z => cases hread
    | stringdata t => cases hread
    | binarydata os =>
        obtain ⟨hne, os', hos', hnil⟩ := hread
        have hos : os = os' := Option.some.inj ((decode64_encode64 os).symm.trans hos')
        cases hnil
        exact hne (hos ▸ rfl)

theorem fromJSON_of_inOrder {ps : List IAsnOptionalParam}
    (hkeys : (ps.map IAsnOptionalParam.key).Nodup) (horder : InOrder ps)
    (h : ∀ p ∈ ps, p.Own ∧ p.value.Full) (bLaxDecoding : Bool) :
    fromJSON bLaxDecoding (toJSON false ps) = some (true, ps) := by
  have hjson : toJSON false ps = ps.map property :=
    toJSON_eq hkeys (fun p hp => (h p hp).1) false
  have henumerate : enumerate (ps.map property) = ps.map property := by
    rw [InOrder, List.pairwise_map] at horder
    refine List.Pairwise.insertionSort_eq ?_
    rw [List.pairwise_map]
    exact horder
  rw [fromJSON, hjson, henumerate, decodeProperties_property fun p hp => ⟨(h p hp).1.2, (h p hp).2⟩]
  exact congrArg (fun b => some (b, ps)) (Bool.or_true bLaxDecoding)

/-! ### What the other side reads -/

theorem mem_setMember {members : List (List BitString.Octet × Value)} {name : List BitString.Octet}
    {v : Value} {e} (he : e ∈ Value.setMember members name v) :
    e = (Value.czString name, v) ∨ e ∈ members := by
  rw [Value.setMember] at he
  induction members with
  | nil => exact .inl (List.mem_singleton.mp he)
  | cons entry members ih =>
      rw [SortedMap.insert] at he
      split_ifs at he with hlt heq
      · exact List.mem_cons.mp he
      · rcases List.mem_cons.mp he with rfl | he
        · exact .inl (by rw [Value.memberRank_injective heq])
        · exact .inr (List.mem_cons_of_mem _ he)
      · rcases List.mem_cons.mp he with rfl | he
        · exact .inr List.mem_cons_self
        · exact (ih he).imp_right (List.mem_cons_of_mem _)

theorem length_czString_lt (key : List BitString.Octet) : (Value.czString key).length < 2 ^ 30 :=
  (List.length_take_le _ _).trans_lt (Nat.mod_lt _ (by norm_num))

/-- A member that stands for a property. -/
def StandsFor (object : PlainObject) (e : List BitString.Octet × Value) : Prop :=
  ∃ entry ∈ object, e.1 = Value.czString (Utf8.encode entry.1) ∧ valueOf entry.2 = some e.2

theorem standsFor_membersOf {object : PlainObject} {members}
    (h : membersOf object = some members) :
    SortedMap.Sorted Value.memberRank members ∧ ∀ e ∈ members, StandsFor object e := by
  have hfold {todo : PlainObject} (htodo : ∀ entry ∈ todo, entry ∈ object) {before}
      (hsorted : SortedMap.Sorted Value.memberRank before)
      (hbefore : ∀ e ∈ before, StandsFor object e)
      (hrun : todo.foldlM (fun members property =>
        (valueOf property.2).map fun v => Value.setMember members (Utf8.encode property.1) v)
        before = some members) :
      SortedMap.Sorted Value.memberRank members ∧ ∀ e ∈ members, StandsFor object e := by
    induction todo generalizing before with
    | nil =>
        cases hrun
        exact ⟨hsorted, hbefore⟩
    | cons entry todo ih =>
        rw [List.forall_mem_cons] at htodo
        rw [List.foldlM_cons] at hrun
        obtain ⟨after, hafter, hrun⟩ := Option.bind_eq_some_iff.mp hrun
        obtain ⟨v, hv, rfl⟩ := Option.map_eq_some_iff.mp hafter
        refine ih htodo.2 hsorted.insert (fun e he => ?_) hrun
        rcases mem_setMember he with rfl | he
        · exact ⟨entry, htodo.1, rfl, hv⟩
        · exact hbefore e he
  exact hfold (fun _ he => he) List.Pairwise.nil (fun _ he => absurd he List.not_mem_nil) h

/-- What the loop of `JDec` adds for one name. -/
def AddedFor (conv : StringConvert) (members : List (List BitString.Octet × Value))
    (name : List BitString.Octet) (q : AsnOptionalParam) : Prop :=
  q.key = UTF8String.setUTF8 conv name ∧
    AsnOptionalParamChoice.jDec conv ((Value.find members name).getD .nullValue) = .ok q.value

theorem jDecMembers_eq_ok {conv : StringConvert} {members names done qs}
    (h : AsnOptionalParameters.jDecMembers conv members names done = .ok (some qs)) :
    ∃ new, qs = done ++ new ∧ List.Forall₂ (AddedFor conv members) names new := by
  induction names generalizing done with
  | nil =>
      cases h
      exact ⟨[], (List.append_nil _).symm, .nil⟩
  | cons name names ih =>
      rw [AsnOptionalParameters.jDecMembers] at h
      cases hvalue : AsnOptionalParamChoice.jDec conv
          ((Value.find members name).getD .nullValue) with
      | error f =>
          rw [hvalue] at h
          cases h
      | ok value =>
          rw [hvalue] at h
          obtain ⟨new, hnew, hall⟩ := ih h
          refine ⟨⟨UTF8String.setUTF8 conv name, value⟩ :: new, ?_, .cons ⟨rfl, hvalue⟩ hall⟩
          rw [hnew, List.append_assoc, List.singleton_append]

theorem jDecMembers_of_forall₂ {conv : StringConvert} {members names new}
    (h : List.Forall₂ (AddedFor conv members) names new) (done : List AsnOptionalParam) :
    AsnOptionalParameters.jDecMembers conv members names done = .ok (some (done ++ new)) := by
  induction h generalizing done with
  | nil => rw [AsnOptionalParameters.jDecMembers, List.append_nil]
  | @cons name q names new hq _ ih =>
      rw [AsnOptionalParameters.jDecMembers, hq.2]
      show AsnOptionalParameters.jDecMembers conv members names (done ++ [⟨_, q.value⟩]) = _
      rw [← hq.1, ih, List.append_assoc, List.singleton_append]

/-! ### Text and values on the other side -/

theorem wide_injective : Function.Injective wide := by
  refine List.map_injective_iff.mpr fun c d h => ?_
  have hc : c.toNat < 2 ^ 32 := c.val.toNat_lt
  have hd : d.toNat < 2 ^ 32 := d.val.toNat_lt
  have hnat := congrArg BitVec.toNat h
  rw [BitVec.toNat_ofNat, BitVec.toNat_ofNat, Nat.mod_eq_of_lt hc, Nat.mod_eq_of_lt hd] at hnat
  exact Char.toNat_inj.mp hnat

/-- Text without NUL is read as it is. -/
theorem setUTF8_encode {conv : StringConvert} (hconv : ReadsUtf8 conv) {text : List Char}
    (h : '\x00' ∉ text) : UTF8String.setUTF8 conv (Utf8.encode text) = wide text := by
  have hcString : cString (Utf8.encode text) = Utf8.encode text :=
    Value.cString_eq fun ch hch hzero => h (Utf8.zero_mem_encode.mp (hzero ▸ hch))
  rw [UTF8String.setUTF8, hcString]
  split_ifs with hempty
  · have htext : text = [] := Utf8.encode_injective hempty
    rw [htext]
    rfl
  · rw [(hconv _ _).mpr ⟨text, rfl, rfl⟩, Option.getD_some]

/-- What has been read as a text is in front, up to a NUL. -/
theorem setUTF8_eq_wide {conv : StringConvert} (hconv : ReadsUtf8 conv) {str : List BitString.Octet}
    {text : List Char} (h : UTF8String.setUTF8 conv str = wide text) :
    '\x00' ∉ text ∧ (Utf8.encode text).length ≤ str.length := by
  rw [UTF8String.setUTF8] at h
  by_cases htext : text = []
  · rw [htext]
    exact ⟨List.not_mem_nil, Nat.zero_le _⟩
  have hwide : wide text ≠ [] := fun he => htext (List.map_eq_nil_iff.mp he)
  have hencode : Utf8.encode text = cString str := by
    split_ifs at h with hempty
    · exact absurd h.symm hwide
    · cases hread : conv.utf8ToWide (cString str) with
      | none =>
          rw [hread] at h
          exact absurd h.symm hwide
      | some w =>
          rw [hread, Option.getD_some] at h
          obtain ⟨t, ht, hw⟩ := (hconv _ _).mp hread
          rw [← ht, wide_injective (hw.trans h)]
  constructor
  · intro hzero
    have hin : (0 : BitString.Octet) ∈ cString str := hencode ▸ Utf8.zero_mem_encode.mpr hzero
    exact absurd (List.mem_takeWhile_imp hin) (by decide)
  · rw [hencode]
    exact (List.takeWhile_sublist _).length_le

/-- A property is read as a value. -/
def ReadsAs (conv : StringConvert) (value : IUCServerOptionalParam) (content : Content) : Prop :=
  ∃ v d, valueOf value = some v ∧ AsnOptionalParamChoice.jDec conv v = .ok d ∧ d.content = content

/-- A value that is neither an object nor a string. -/
theorem jDec_ok_iff {conv : StringConvert} {v : Value}
    (hobject : ∀ members, v ≠ .objectValue members)
    (hstring : ∀ text, v ≠ .stringValue text) {d : AsnOptionalParamChoice} :
    AsnOptionalParamChoice.jDec conv v = .ok d ↔
      v.isConvertibleToInt = true ∧ AsnOptionalParamChoice.jDecInteger v = .ok d := by
  have hif : AsnOptionalParamChoice.jDec conv v =
      if v.isConvertibleToInt then AsnOptionalParamChoice.jDecInteger v
      else .error (invalidTagException "no valid choice member") := by
    cases v with
    | objectValue members => exact absurd rfl (hobject members)
    | stringValue text => exact absurd rfl (hstring text)
    | _ => rfl
  rw [hif]
  split_ifs with hconv
  · exact (and_iff_right hconv).symm
  · exact iff_of_false (fun h => by cases h) fun h => hconv h.1

theorem readsAs_number {conv : StringConvert} {value : ℤ} {content : Content} :
    ReadsAs conv (.number value) content ↔
      (-2 ^ 31 ≤ value ∧ value < 2 ^ 31) ∧ content = .integer value := by
  have hsmall (hge : -2 ^ 63 ≤ value) (hlt : value < 2 ^ 63) :
      Value.isConvertibleToInt (.intValue (BitVec.ofInt 64 value)) = true ↔
        -2 ^ 31 ≤ value ∧ value < 2 ^ 31 := by
    show (decide _ || false) = true ↔ _
    rw [Bool.or_false, decide_eq_true_iff, AsnInt.toInt_ofInt hge hlt]
    omega
  have hbig (hge : 2 ^ 63 ≤ value) (hlt : value < 2 ^ 64) :
      Value.isConvertibleToInt (.uintValue (BitVec.ofInt 64 value)) = false := by
    show (decide _ || false) = false
    rw [Bool.or_false, decide_eq_false_iff_not, BitVec.toNat_ofInt,
      Int.emod_eq_of_lt (by omega) (by omega)]
    omega
  constructor
  · rintro ⟨v, d, hv, hd, rfl⟩
    rw [valueOf, intValueOf] at hv
    split_ifs at hv with hint huint
    · cases hv
      obtain ⟨x, hdec, hvalue⟩ := AsnInt.jDec_intValue hint.1 hint.2
      obtain ⟨hconv, hinteger⟩ :=
        (jDec_ok_iff (fun _ h => by cases h) fun _ h => by cases h).mp hd
      rw [AsnOptionalParamChoice.jDecInteger_eq hdec] at hinteger
      cases hinteger
      exact ⟨(hsmall hint.1 hint.2).mp hconv, congrArg Content.integer hvalue⟩
    · cases hv
      have hconv := ((jDec_ok_iff (fun _ h => by cases h) fun _ h => by cases h).mp hd).1
      rw [hbig (by omega) huint.2] at hconv
      cases hconv
  · rintro ⟨hrange, rfl⟩
    obtain ⟨x, hdec, hvalue⟩ := @AsnInt.jDec_intValue value (by omega) (by omega)
    refine ⟨.intValue (BitVec.ofInt 64 value), .integerdata x, ?_, ?_,
      congrArg Content.integer hvalue⟩
    · rw [valueOf, intValueOf, if_pos (by omega)]
    · exact (jDec_ok_iff (fun _ h => by cases h) fun _ h => by cases h).mpr
        ⟨(hsmall (by omega) (by omega)).mpr hrange, AsnOptionalParamChoice.jDecInteger_eq hdec⟩

theorem readsAs_string {conv : StringConvert} {value : List Char} {content : Content} :
    ReadsAs conv (.string value) content ↔
      (Utf8.encode value).length ≤ maxStringLength ∧
        content = .text (UTF8String.setUTF8 conv (Utf8.encode value)) := by
  constructor
  · rintro ⟨v, d, hv, hd, rfl⟩
    rw [valueOf, stringValueOf] at hv
    split_ifs at hv with hfits
    cases hv
    cases hd
    exact ⟨hfits, rfl⟩
  · rintro ⟨hfits, rfl⟩
    refine ⟨.stringValue ⟨Utf8.encode value, hfits⟩, _, ?_, rfl, rfl⟩
    rw [valueOf, stringValueOf, dif_pos hfits]

theorem readsAs_binary {conv : StringConvert} {value : List Byte} {content : Content} :
    ReadsAs conv (.binary (encode64 value)) content ↔
      (Utf8.encode (encode64 value).toList).length ≤ maxStringLength ∧ content = .octets value := by
  have hread (hfits : (Utf8.encode (encode64 value).toList).length ≤ maxStringLength) :
      AsnOptionalParamChoice.jDec conv (.objectValue (Value.setMember [] (Value.name "binarydata")
        (.stringValue ⟨Utf8.encode (encode64 value).toList, hfits⟩))) = .ok (.binarydata ⟨value⟩) :=
    (AsnOptionalParamChoice.jDec_member _).2.1.trans
      (AsnOptionalParamChoice.jDecBinary_eq (AsnOcts.jDec_encode64 rfl _))
  constructor
  · rintro ⟨v, d, hv, hd, rfl⟩
    rw [valueOf, stringValueOf] at hv
    split_ifs at hv with hfits
    · cases hv
      rw [hread hfits] at hd
      cases hd
      exact ⟨hfits, rfl⟩
    · cases hv
  · rintro ⟨hfits, rfl⟩
    refine ⟨_, _, ?_, hread hfits, rfl⟩
    rw [valueOf, stringValueOf, dif_pos hfits, Option.map_some]

theorem readsAs_of_plain {conv : StringConvert} (hconv : ReadsUtf8 conv) {p : IAsnOptionalParam}
    (h : p.value.Plain) : ReadsAs conv (property p).2 p.value.content := by
  obtain ⟨key, value⟩ := p
  cases value with
  | integerdata value => exact readsAs_number.mpr ⟨h, rfl⟩
  | stringdata value =>
      exact readsAs_string.mpr ⟨h.2, congrArg Content.text (setUTF8_encode hconv h.1).symm⟩
  | binarydata value => exact readsAs_binary.mpr ⟨h, rfl⟩

/-- What has been read as the value of one parameter from the property of another. -/
theorem plain_of_readsAs {conv : StringConvert} (hconv : ReadsUtf8 conv) {p : IAsnOptionalParam}
    {choice : IAsnOptionalParamChoice} (h : ReadsAs conv (property p).2 choice.content) :
    choice.Plain := by
  obtain ⟨key, value⟩ := p
  cases value with
  | integerdata value =>
      obtain ⟨hrange, hcontent⟩ := readsAs_number.mp h
      cases choice <;> cases hcontent
      exact hrange
  | stringdata value =>
      obtain ⟨hfits, hcontent⟩ := readsAs_string.mp h
      cases choice with
      | stringdata text =>
          obtain ⟨hnul, hlen⟩ := setUTF8_eq_wide hconv (Content.text.inj hcontent).symm
          exact ⟨hnul, hlen.trans hfits⟩
      | _ => cases hcontent
  | binarydata value =>
      obtain ⟨hfits, hcontent⟩ := readsAs_binary.mp h
      cases choice <;> cases hcontent
      exact hfits

theorem exists_name {conv : StringConvert} {members names new}
    (h : List.Forall₂ (AddedFor conv members) names new) {q : AsnOptionalParam} (hq : q ∈ new) :
    ∃ name ∈ names, AddedFor conv members name q := by
  induction h with
  | nil => exact absurd hq List.not_mem_nil
  | cons hadded _ ih =>
      rcases List.mem_cons.mp hq with rfl | hq
      · exact ⟨_, List.mem_cons_self, hadded⟩
      · obtain ⟨name, hname, hmore⟩ := ih hq
        exact ⟨name, List.mem_cons_of_mem _ hname, hmore⟩

/-- Every parameter that is accepted has been read from a property. -/
theorem readsAs_of_accepted {conv : StringConvert} {object : PlainObject}
    {ps : List IAsnOptionalParam} (h : Accepted conv object ps) {p : IAsnOptionalParam}
    (hp : p ∈ ps) :
    ∃ entry ∈ object,
      UTF8String.setUTF8 conv (Value.czString (Utf8.encode entry.1)) = wide p.key ∧
        ReadsAs conv entry.2 p.value.content := by
  obtain ⟨members, qs, hmembers, hqs, hperm⟩ := h
  obtain ⟨hsorted, hstands⟩ := standsFor_membersOf hmembers
  obtain ⟨new, hnew, hadded⟩ := jDecMembers_eq_ok hqs
  rw [List.nil_append] at hnew
  have hin : p.meaning ∈ qs.map AsnOptionalParam.meaning :=
    hperm.mem_iff.mpr (List.mem_map_of_mem hp)
  obtain ⟨q, hq, hmeaning⟩ := List.mem_map.mp hin
  obtain ⟨name, hname, hkey, hvalue⟩ := exists_name hadded (hnew ▸ hq)
  obtain ⟨e, he, rfl⟩ := List.mem_map.mp hname
  obtain ⟨entry, hentry, hczString, hof⟩ := hstands e he
  have hfind : Value.find members e.1 = some e.2 := by
    rw [Value.find, Value.czString_eq (hczString ▸ length_czString_lt _)]
    exact SortedMap.find_of_mem hsorted he
  rw [hfind, Option.getD_some] at hvalue
  refine ⟨entry, hentry, ?_, e.2, q.value, hof, hvalue, congrArg Prod.snd hmeaning⟩
  rw [← hczString, ← hkey]
  exact congrArg Prod.fst hmeaning

theorem legible_of_accepted {conv : StringConvert} (hconv : ReadsUtf8 conv) {bAddTypes : Bool}
    {ps : List IAsnOptionalParam} (h : Accepted conv (toJSON bAddTypes ps) ps)
    {p : IAsnOptionalParam} (hp : p ∈ ps) (htype : p.key ≠ typeKey) : p.Legible := by
  obtain ⟨entry, hentry, hkey, hreads⟩ := readsAs_of_accepted h hp
  obtain ⟨hnul, hlen⟩ := setUTF8_eq_wide hconv hkey
  have hproperty : entry.1 ≠ typeKey := by
    intro heq
    rw [heq, Value.czString_eq (by decide), setUTF8_encode hconv (by decide)] at hkey
    exact htype (wide_injective hkey).symm
  obtain ⟨q, hq, rfl⟩ := mem_toJSON hentry hproperty
  exact ⟨⟨hnul, hlen.trans_lt (length_czString_lt _)⟩, plain_of_readsAs hconv hreads⟩

/-- A member for a property with a short name. -/
def MemberOf (entry : List Char × IUCServerOptionalParam) (e : List BitString.Octet × Value) :
    Prop :=
  e.1 = Utf8.encode entry.1 ∧ (Utf8.encode entry.1).length < 2 ^ 30 ∧ valueOf entry.2 = some e.2

/-- Each property becomes a member, and they come in the order of their names. -/
theorem membersOf_eq {object : PlainObject} {es} (hkeys : (object.map Prod.fst).Nodup)
    (h : List.Forall₂ MemberOf object es) :
    ∃ members, membersOf object = some members ∧ SortedMap.Sorted Value.memberRank members ∧
      members.Perm es := by
  have hfold (before) : object.foldlM (fun members property =>
      (valueOf property.2).map fun v => Value.setMember members (Utf8.encode property.1) v)
      before = some (es.foldl (fun m e => SortedMap.insert Value.memberRank e.1 e.2 m) before) := by
    clear hkeys
    induction h generalizing before with
    | nil => rfl
    | @cons entry e object es he _ ih =>
        rw [List.foldlM_cons, he.2.2, Option.map_some, Value.setMember,
          Value.czString_eq he.2.1, ← he.1]
        exact ih _
  have hnames : es.map Prod.fst = (object.map Prod.fst).map Utf8.encode := by
    clear hkeys hfold
    induction h with
    | nil => rfl
    | cons he _ ih => rw [List.map_cons, List.map_cons, List.map_cons, he.1, ih]
  have hdistinct : es.Pairwise fun e e' => Value.memberRank e.1 ≠ Value.memberRank e'.1 := by
    have hnodup : (es.map Prod.fst).Nodup := hnames ▸ hkeys.map Utf8.encode_injective
    exact (List.pairwise_map.mp hnodup).imp fun hne hrank => hne (Value.memberRank_injective hrank)
  obtain ⟨hsorted, hperm⟩ := @SortedMap.foldl_insert _ _ _ _ Value.memberRank es []
    List.Pairwise.nil hdistinct (fun _ _ _ h => absurd h List.not_mem_nil)
  rw [List.append_nil] at hperm
  exact ⟨_, hfold [], hsorted, hperm⟩

theorem exists_members {conv : StringConvert} (hconv : ReadsUtf8 conv) {ps : List IAsnOptionalParam}
    (h : ∀ p ∈ ps, p.Legible) : ∃ es, List.Forall₂ MemberOf (ps.map property) es := by
  induction ps with
  | nil => exact ⟨[], .nil⟩
  | cons p ps ih =>
      rw [List.forall_mem_cons] at h
      obtain ⟨es, hes⟩ := ih h.2
      obtain ⟨v, -, hv, -, -⟩ := readsAs_of_plain hconv h.1.2
      exact ⟨(Utf8.encode p.key, v) :: es, .cons ⟨rfl, h.1.1.2, hv⟩ hes⟩

/-- With the types there is one parameter too many. -/
theorem not_accepted_types {conv : StringConvert} (hconv : ReadsUtf8 conv)
    {ps : List IAsnOptionalParam} (hkeys : (ps.map IAsnOptionalParam.key).Nodup)
    (h : ∀ p ∈ ps, p.Own) : ¬ Accepted conv (toJSON true ps) ps := by
  intro haccepted
  obtain ⟨es, hes⟩ := exists_members hconv fun p hp =>
    legible_of_accepted hconv haccepted hp (h p hp).2
  obtain ⟨members', qs, hmembers', hqs, hmeanings⟩ := haccepted
  have hfits : (Utf8.encode "IUCServerOptionalParameters".toList).length ≤ maxStringLength := by
    decide
  obtain ⟨v, hv⟩ : ∃ v, valueOf (.string "IUCServerOptionalParameters".toList) = some v :=
    ⟨_, by rw [valueOf, stringValueOf, dif_pos hfits]⟩
  have hall : List.Forall₂ MemberOf (toJSON true ps) ((Utf8.encode typeKey, v) :: es) := by
    rw [toJSON_eq hkeys h]
    exact .cons ⟨rfl, by decide, hv⟩ hes
  have hkeys' : ((toJSON true ps).map Prod.fst).Nodup := by
    rw [toJSON_eq hkeys h, List.map_append, List.map_map]
    refine List.nodup_cons.mpr ⟨fun hin => ?_, hkeys⟩
    obtain ⟨p, hp, heq⟩ := List.mem_map.mp hin
    exact (h p hp).2 heq
  obtain ⟨members, hmembers, -, hperm⟩ := membersOf_eq hkeys' hall
  rw [hmembers] at hmembers'
  cases hmembers'
  obtain ⟨new, hnew, hadded⟩ := jDecMembers_eq_ok hqs
  have hlen := hadded.length_eq
  have hlenPerm := hperm.length_eq
  have hlenMeanings := hmeanings.length_eq
  have hlenMembers := hes.length_eq
  rw [hnew, List.nil_append, List.length_map, List.length_map] at hlenMeanings
  rw [List.length_map] at hlenMembers
  rw [Value.getMemberNames, List.length_map] at hlen
  rw [List.length_cons] at hlenPerm
  omega

/-- The loop of `JDec` over members that stand for the parameters. -/
theorem addedFor_of_members {conv : StringConvert} (hconv : ReadsUtf8 conv)
    {members todo : List (List BitString.Octet × Value)}
    (hsorted : SortedMap.Sorted Value.memberRank members) (htodo : ∀ e ∈ todo, e ∈ members)
    {ps : List IAsnOptionalParam} (hps : ∀ p ∈ ps, p.Legible)
    (h : List.Forall₂ (fun e p => MemberOf (property p) e) todo ps) :
    ∃ qs, List.Forall₂ (AddedFor conv members) (Value.getMemberNames todo) qs ∧
      qs.map AsnOptionalParam.meaning = ps.map IAsnOptionalParam.meaning := by
  induction h with
  | nil => exact ⟨[], .nil, rfl⟩
  | @cons e p todo ps he _ ih =>
      rw [List.forall_mem_cons] at htodo hps
      obtain ⟨qs, hqs, hmeanings⟩ := ih htodo.2 hps.2
      obtain ⟨v, d, hv, hd, hcontent⟩ := readsAs_of_plain hconv hps.1.2
      have hvalue : v = e.2 := Option.some.inj (hv.symm.trans he.2.2)
      have hfind : Value.find members e.1 = some e.2 := by
        rw [Value.find, he.1, Value.czString_eq he.2.1, ← he.1]
        exact SortedMap.find_of_mem hsorted htodo.1
      refine ⟨⟨wide p.key, d⟩ :: qs, .cons ⟨?_, ?_⟩ hqs, ?_⟩
      · rw [he.1]
        exact (setUTF8_encode hconv hps.1.1.1).symm
      · rw [hfind, Option.getD_some, ← hvalue]
        exact hd
      · rw [List.map_cons, List.map_cons, hmeanings, AsnOptionalParam.meaning,
          IAsnOptionalParam.meaning, hcontent]

theorem accepted_of_legible {conv : StringConvert} (hconv : ReadsUtf8 conv)
    {ps : List IAsnOptionalParam} (hkeys : (ps.map IAsnOptionalParam.key).Nodup)
    (h : ∀ p ∈ ps, p.Own ∧ p.Legible) : Accepted conv (toJSON false ps) ps := by
  have hjson : toJSON false ps = ps.map property :=
    toJSON_eq hkeys (fun p hp => (h p hp).1) false
  have hlegible : ∀ p ∈ ps, p.Legible := fun p hp => (h p hp).2
  obtain ⟨es, hes⟩ := exists_members hconv hlegible
  have hnames : ((ps.map property).map Prod.fst).Nodup := by
    rw [List.map_map]
    exact hkeys
  obtain ⟨members, hmembers, hsorted, hperm⟩ := membersOf_eq hnames hes
  obtain ⟨ws, hws, hwsPerm⟩ :=
    List.perm_comp_forall₂ hperm (List.forall₂_map_left_iff.mp hes).flip
  obtain ⟨qs, hqs, hmeanings⟩ := addedFor_of_members hconv hsorted (fun e he => he)
    (fun p hp => hlegible p (hwsPerm.mem_iff.mp hp)) hws
  refine ⟨members, qs, hjson ▸ hmembers, jDecMembers_of_forall₂ hqs [], ?_⟩
  rw [hmeanings]
  exact hwsPerm.map _

/-! ### Parameters of the interface -/

/-- Parameters with different keys survive if and only if the output has no types, keys that are
array indices come first and go up, no key is `__proto__` or `_type`, no binary value is empty,
integers are those of an `int`, and keys and texts are without NUL and short enough. -/
theorem params_survive_iff {conv : StringConvert} (hconv : ReadsUtf8 conv)
    (bAddTypes bLaxDecoding : Bool) {ps : List IAsnOptionalParam}
    (hkeys : (ps.map IAsnOptionalParam.key).Nodup) :
    Survive conv bAddTypes bLaxDecoding ps ↔
      bAddTypes = false ∧ InOrder ps ∧ ∀ p ∈ ps, p.Own ∧ p.value.Full ∧ p.Legible := by
  constructor
  · rintro ⟨hread, haccepted⟩
    obtain ⟨horder, hall⟩ := inOrder_of_fromJSON hread
    refine ⟨?_, horder, fun p hp => ⟨(hall p hp).1, (hall p hp).2,
      legible_of_accepted hconv haccepted hp (hall p hp).1.2⟩⟩
    cases bAddTypes with
    | false => rfl
    | true => exact absurd haccepted (not_accepted_types hconv hkeys fun p hp => (hall p hp).1)
  · rintro ⟨rfl, horder, hall⟩
    exact ⟨fromJSON_of_inOrder hkeys horder (fun p hp => ⟨(hall p hp).1, (hall p hp).2.1⟩) _,
      accepted_of_legible hconv hkeys fun p hp => ⟨(hall p hp).1, (hall p hp).2.2⟩⟩

/-- The conversion of UTF-8. -/
def utf8Convert : StringConvert where
  utf8ToWide s := (Utf8.decode s).map wide
  wideToUTF8 w := some (Utf8.encode (w.map fun c => Char.ofNat c.toNat))

theorem readsUtf8_utf8Convert : ReadsUtf8 utf8Convert := by
  intro s w
  show (Utf8.decode s).map wide = some w ↔ _
  rw [Option.map_eq_some_iff]
  exact exists_congr fun t => and_congr_left fun _ => Utf8.decode_eq_some

/-- Two parameters, of which the first has the number of an array index. -/
theorem params_survive_two : Survive utf8Convert false false
    [⟨['7'], .integerdata 5⟩, ⟨['k'], .binarydata [0x4D, 0xFF]⟩] := by
  refine (params_survive_iff readsUtf8_utf8Convert false false (by decide)).mpr ⟨rfl, ?_, ?_⟩
  · exact List.pairwise_pair.mpr (by decide)
  · rw [List.forall_mem_cons, List.forall_mem_singleton]
    refine ⟨⟨⟨by decide, by decide⟩, (fun h => by cases h), ⟨by decide, by decide⟩, ?_⟩,
      ⟨⟨by decide, by decide⟩, (fun h => by cases h), ⟨by decide, by decide⟩, ?_⟩⟩
    · exact (by decide : (-2 ^ 31 : ℤ) ≤ 5 ∧ (5 : ℤ) < 2 ^ 31)
    · exact (by decide :
        (Utf8.encode (encode64 [0x4D, 0xFF]).toList).length ≤ maxStringLength)

/-- A parameter with the key of the type is lost, and so is an empty value, which is an error. -/
theorem not_params_survive :
    (¬ ∀ (bAddTypes bLaxDecoding : Bool) (ps : List IAsnOptionalParam),
      (ps.map IAsnOptionalParam.key).Nodup → Survive utf8Convert bAddTypes bLaxDecoding ps) ∧
    fromJSON false (toJSON false [⟨typeKey, .integerdata 5⟩]) = some (true, []) ∧
    fromJSON false (toJSON false [⟨['k'], .binarydata []⟩]) = some (false, []) ∧
    fromJSON false (toJSON false [⟨['k'], .integerdata 5⟩, ⟨['7'], .integerdata 5⟩]) =
      some (true, [⟨['7'], .integerdata 5⟩, ⟨['k'], .integerdata 5⟩]) := by
  have htype : fromJSON false (toJSON false [⟨typeKey, .integerdata 5⟩]) = some (true, []) := by
    decide
  refine ⟨fun h => ?_, htype, by decide, by decide⟩
  have hread := (h false false [⟨typeKey, .integerdata 5⟩] (by decide)).1
  rw [htype] at hread
  exact absurd hread (by decide)

end Esnacc.Ts
