import Esnacc.Runtime.OptionalParam

/-!
What comes back of optional parameters. The object keeps them by their keys, so that they
come back in the order of the keys; an array keeps their order. Text comes back as far as
the conversion to UTF-8 can be undone, and integers that fit into an `int`: the kind of a
larger one is not recognized.
-/

namespace Esnacc

open BitString SJson

/-! ### Integers -/

namespace AsnInt

@[simp] theorem length_bigEndian64 (z : ℤ) : (bigEndian64 z).length = 8 := rfl

theorem natOfOctets_bigEndian64 (z : ℤ) : (natOfOctets (bigEndian64 z) : ℤ) = z % 2 ^ 64 := by
  have h₀ := toNat_ofInt_shiftRight z 0
  have h₁ := toNat_ofInt_shiftRight z 8
  have h₂ := toNat_ofInt_shiftRight z 16
  have h₃ := toNat_ofInt_shiftRight z 24
  have h₄ := toNat_ofInt_shiftRight z 32
  have h₅ := toNat_ofInt_shiftRight z 40
  have h₆ := toNat_ofInt_shiftRight z 48
  have h₇ := toNat_ofInt_shiftRight z 56
  simp only [Int.shiftRight_zero, pow_zero, Int.ediv_one] at h₀
  simp only [bigEndian64, natOfOctets_cons, natOfOctets_nil, List.length_cons, List.length_nil]
  push_cast
  rw [h₀, h₁, h₂, h₃, h₄, h₅, h₆, h₇]
  omega

theorem signBit_bigEndian64 {z : ℤ} (hge : -2 ^ 63 ≤ z) (hlt : z < 2 ^ 63) :
    signBit (bigEndian64 z) = decide (z < 0) := by
  have h := toNat_ofInt_shiftRight z 56
  show (BitVec.ofInt 8 (z >>> (56 : ℕ))).msb = _
  rw [msb_eq_decide]
  congr 1
  simp only [eq_iff_iff]
  rw [show (2 : ℤ) ^ 56 = 72057594037927936 by norm_num] at h
  constructor <;> intro hz <;> omega

/-- A `long long` is stored as itself. -/
theorem setLongLong_eq {z : ℤ} (hge : -2 ^ 63 ≤ z) (hlt : z < 2 ^ 63) :
    ∃ x : AsnInt, setLongLong z = .ok x ∧ x.value = z := by
  have hnat := natOfOctets_bigEndian64 z
  have hsign := signBit_bigEndian64 hge hlt
  obtain ⟨hlen, hvalue⟩ : (derOctets (bigEndian64 z) (0 ≤ z)).length ≤ 8 ∧
      intOfOctets (derOctets (bigEndian64 z) (0 ≤ z)) = z := by
    by_cases hz : 0 ≤ z
    · have hclear : signBit (bigEndian64 z) = false := by
        rw [hsign]
        simpa using hz
      rw [decide_eq_true hz]
      refine ⟨length_derOctets_unsigned_le hclear, ?_⟩
      rw [intOfOctets_derOctets_unsigned, hnat]
      omega
    · rw [decide_eq_false hz]
      refine ⟨length_derOctets_signed_le (bigEndian64 z), ?_⟩
      rw [intOfOctets_derOctets_signed (by simp), intOfOctets, hsign, hnat,
        if_pos (by simpa using hz), length_bigEndian64]
      omega
  have hword := @getLongLong_eq ⟨0, derOctets (bigEndian64 z) (0 ≤ z)⟩ hlen
  refine ⟨⟨z, derOctets (bigEndian64 z) (0 ≤ z)⟩, ?_, hvalue⟩
  rw [setLongLong, storeDERInteger, hword]
  show Except.ok (AsnInt.mk (intOfOctets _) _) = _
  rw [hvalue]

theorem toInt_ofInt {z : ℤ} (hge : -2 ^ 63 ≤ z) (hlt : z < 2 ^ 63) :
    (BitVec.ofInt 64 z).toInt = z := by
  rw [BitVec.toInt_ofInt]
  exact Int.bmod_eq_of_le (by omega) (by omega)

/-- An integer in the range of a `long long` comes back, by itself or as a member. -/
theorem jDec_intValue {z : ℤ} (hge : -2 ^ 63 ≤ z) (hlt : z < 2 ^ 63) :
    ∃ x : AsnInt, jDec (.intValue (BitVec.ofInt 64 z)) = .ok (some x) ∧ x.value = z := by
  obtain ⟨x, hset, hvalue⟩ := setLongLong_eq hge hlt
  refine ⟨x, ?_, hvalue⟩
  rw [jDec, if_pos (.inl rfl), Value.asInt64, toInt_ofInt hge hlt]
  show (do
    let x ← setLongLong z
    return some x) = _
  rw [hset]
  rfl

theorem jEnc_eq {x : AsnInt} (h : x.mBytes.length ≤ 8) :
    x.jEnc = .ok (.intValue (BitVec.ofInt 64 x.value)) := by
  rw [jEnc, getLongLong_eq h]
  rfl

end AsnInt

/-! ### Text -/

namespace UTF8String

variable {conv : StringConvert}

/-- Text that the conversion to UTF-8 and back leaves as it is, and that the JSON library
takes. -/
structure Legible (conv : StringConvert) (x : UTF8String) : Prop where
  converts : setUTF8 conv (getUTF8 conv x) = x
  fits : (getUTF8 conv x).length ≤ maxStringLength

theorem cString_cString (str : List Octet) : cString (cString str) = cString str := by
  rw [cString, cString, List.takeWhile_eq_self_iff]
  intro ch hch
  exact List.mem_takeWhile_imp (p := fun ch => ch != 0) hch

theorem setUTF8_cString (str : List Octet) : setUTF8 conv (cString str) = setUTF8 conv str := by
  rw [setUTF8, setUTF8, cString_cString]

theorem jDec_jEnc {x : UTF8String} (h : x.Legible conv) :
    ∃ t, jEnc conv x = .ok (.stringValue t) ∧ jDec conv (.stringValue t) = some x := by
  have hfits : (cString (getUTF8 conv x)).length ≤ maxStringLength :=
    (List.takeWhile_sublist _).length_le.trans h.fits
  refine ⟨_, Value.ofString_eq hfits, ?_⟩
  rw [jDec, setUTF8_cString, h.converts]

end UTF8String

/-! ### Values -/

/-- What a value is, apart from how it is kept. -/
inductive Content
  | text (value : List WChar)
  | octets (value : List Octet)
  | integer (value : ℤ)
  deriving DecidableEq

namespace AsnOptionalParamChoice

variable {conv : StringConvert}

def content : AsnOptionalParamChoice → Content
  | stringdata value => .text value
  | binarydata value => .octets value.mStr
  | integerdata value => .integer value.value

/-- Legible text, octets whose base64 text the JSON library takes, or the integers of an
`int`. -/
def Plain (conv : StringConvert) : AsnOptionalParamChoice → Prop
  | stringdata value => value.Legible conv
  | binarydata value => 4 * ((value.mStr.length + 2) / 3) ≤ maxStringLength
  | integerdata value => value.mBytes.length ≤ 8 ∧ -2 ^ 31 ≤ value.value ∧ value.value < 2 ^ 31

/-- The old format of a value: an object with a member for its kind. -/
def jEncOld (conv : StringConvert) : AsnOptionalParamChoice → Except Fault Value
  | stringdata value => do
      let v ← value.jEnc conv
      return .objectValue (Value.setMember [] (Value.name "stringdata") v)
  | binarydata value => do
      let v ← value.jEnc
      return .objectValue (Value.setMember [] (Value.name "binarydata") v)
  | integerdata value => do
      let v ← value.jEnc
      return .objectValue (Value.setMember [] (Value.name "integerdata") v)

theorem find_single (key : List Octet) (v : Value) :
    Value.find (Value.setMember [] key v) key = some v := by
  rw [Value.find, Value.setMember, SortedMap.insert, SortedMap.find, if_pos rfl]

theorem find_single_of_ne {key name : List Octet} (v : Value)
    (h : Value.memberRank (Value.czString name) ≠ Value.memberRank (Value.czString key)) :
    Value.find (Value.setMember [] key v) name = none := by
  rw [Value.find, Value.setMember, SortedMap.insert, SortedMap.find, if_neg h, SortedMap.find]

theorem jDecString_eq {x : UTF8String} {t : Text} (h : UTF8String.jDec conv (.stringValue t) = some x) :
    jDecString conv (.stringValue t) = .ok (stringdata x) := by
  rw [jDecString, h]
  rfl

theorem jDecBinary_eq {os : List Octet} {v : Value} (h : AsnOcts.jDec ⟨[]⟩ v = .ok (⟨os⟩, true)) :
    jDecBinary v = .ok (binarydata ⟨os⟩) := by
  rw [jDecBinary, h]
  rfl

theorem jDecInteger_eq {x : AsnInt} {v : Value} (h : AsnInt.jDec v = .ok (some x)) :
    jDecInteger v = .ok (integerdata x) := by
  rw [jDecInteger, h]
  rfl

/-- The members of the old format, and the binary data of the new one. -/
theorem jDec_member (v : Value) :
    jDec conv (.objectValue (Value.setMember [] (Value.name "stringdata") v)) = jDecString conv v ∧
    jDec conv (.objectValue (Value.setMember [] (Value.name "binarydata") v)) = jDecBinary v ∧
    jDec conv (.objectValue (Value.setMember [] (Value.name "integerdata") v)) =
      jDecInteger v := by
  refine ⟨?_, ?_, ?_⟩
  · rw [jDec, find_single]
  · rw [jDec, find_single_of_ne v (by decide), find_single]
  · rw [jDec, find_single_of_ne v (by decide), find_single_of_ne v (by decide), find_single]

theorem jDec_jEnc {c : AsnOptionalParamChoice} (h : c.Plain conv) :
    ∃ v d, jEnc conv c = .ok v ∧ jDec conv v = .ok d ∧ d.content = c.content := by
  cases c with
  | stringdata value =>
      obtain ⟨t, henc, hdec⟩ := UTF8String.jDec_jEnc h
      exact ⟨_, _, henc, jDecString_eq hdec, rfl⟩
  | binarydata value =>
      obtain ⟨v, henc, hdec⟩ := AsnOcts.jDec_jEnc ⟨[]⟩ h
      refine ⟨.objectValue (Value.setMember [] (Value.name "binarydata") v), _, ?_,
        (jDec_member v).2.1.trans (jDecBinary_eq hdec), rfl⟩
      rw [jEnc, henc]
      rfl
  | integerdata value =>
      obtain ⟨hlen, hge, hlt⟩ := h
      obtain ⟨x, hdec, hvalue⟩ := @AsnInt.jDec_intValue value.value (by omega) (by omega)
      refine ⟨_, .integerdata x, AsnInt.jEnc_eq hlen, ?_, congrArg Content.integer hvalue⟩
      have hint : Value.isConvertibleToInt (.intValue (BitVec.ofInt 64 value.value)) = true := by
        have hsmall : Value.isInt (.intValue (BitVec.ofInt 64 value.value)) = true := by
          rw [Value.isInt, AsnInt.toInt_ofInt (by omega) (by omega)]
          exact decide_eq_true ⟨hge, by omega⟩
        exact Bool.or_eq_true_iff.mpr (.inl hsmall)
      exact (if_pos hint).trans (jDecInteger_eq hdec)

theorem jDec_jEncOld {c : AsnOptionalParamChoice} (h : c.Plain conv) :
    ∃ v d, jEncOld conv c = .ok v ∧ jDec conv v = .ok d ∧ d.content = c.content := by
  cases c with
  | stringdata value =>
      obtain ⟨t, henc, hdec⟩ := UTF8String.jDec_jEnc h
      refine ⟨.objectValue (Value.setMember [] (Value.name "stringdata") (.stringValue t)), _, ?_,
        (jDec_member _).1.trans (jDecString_eq hdec), rfl⟩
      rw [jEncOld, henc]
      rfl
  | binarydata value =>
      obtain ⟨v, henc, hdec⟩ := AsnOcts.jDec_jEnc ⟨[]⟩ h
      refine ⟨.objectValue (Value.setMember [] (Value.name "binarydata") v), _, ?_,
        (jDec_member v).2.1.trans (jDecBinary_eq hdec), rfl⟩
      rw [jEncOld, henc]
      rfl
  | integerdata value =>
      obtain ⟨hlen, hge, hlt⟩ := h
      obtain ⟨x, hdec, hvalue⟩ := @AsnInt.jDec_intValue value.value (by omega) (by omega)
      refine ⟨.objectValue (Value.setMember [] (Value.name "integerdata")
        (.intValue (BitVec.ofInt 64 value.value))), .integerdata x, ?_,
        (jDec_member _).2.2.trans (jDecInteger_eq hdec), congrArg Content.integer hvalue⟩
      rw [jEncOld, AsnInt.jEnc_eq hlen]
      rfl

end AsnOptionalParamChoice

/-! ### Parameters -/

namespace AsnOptionalParam

variable {conv : StringConvert}

/-- The key, and what the value is. -/
def meaning (p : AsnOptionalParam) : UTF8String × Content := (p.key, p.value.content)

/-- The key is legible and short enough for the name of a member, and so is the value. -/
structure Plain (conv : StringConvert) (p : AsnOptionalParam) : Prop where
  key : UTF8String.setUTF8 conv (p.key.getUTF8 conv) = p.key
  key_lt : (p.key.getUTF8 conv).length < 2 ^ 30
  value : p.value.Plain conv

/-- One element of the array format, with the value in the format of `jEncValue`. -/
def jEncElement (conv : StringConvert)
    (jEncValue : StringConvert → AsnOptionalParamChoice → Except Fault Value)
    (p : AsnOptionalParam) : Except Fault Value := do
  let key ← p.key.jEnc conv
  let value ← jEncValue conv p.value
  return keyValue key value

theorem jDec_keyValue {key value : Value} {x : UTF8String} {c : AsnOptionalParamChoice}
    (hkey : UTF8String.jDec conv key = some x)
    (hvalue : AsnOptionalParamChoice.jDec conv value = .ok c) :
    jDec conv (keyValue key value) = .ok (some ⟨x, c⟩) := by
  have hmembers : Value.setMember (Value.setMember [] (Value.name "key") key) (Value.name "value")
      value = [(Value.czString (Value.name "key"), key),
        (Value.czString (Value.name "value"), value)] := by
    rw [Value.setMember, Value.setMember, SortedMap.insert, SortedMap.insert,
      if_neg (by dsimp only; decide), if_neg (by dsimp only; decide), SortedMap.insert]
  rw [keyValue, hmembers, jDec, Value.find, SortedMap.find, if_pos rfl]
  dsimp only
  rw [hkey, Value.find, SortedMap.find, if_neg (by dsimp only; decide), SortedMap.find, if_pos rfl]
  show (do
    let value ← AsnOptionalParamChoice.jDec conv value
    return some (AsnOptionalParam.mk x value)) = _
  rw [hvalue]
  rfl

/-- An element comes back in either format of its value. -/
theorem jDec_jEncElement
    {jEncValue : StringConvert → AsnOptionalParamChoice → Except Fault Value}
    (henc : ∀ c : AsnOptionalParamChoice, c.Plain conv → ∃ v d, jEncValue conv c = .ok v ∧
      AsnOptionalParamChoice.jDec conv v = .ok d ∧ d.content = c.content)
    {p : AsnOptionalParam} (h : p.Plain conv) :
    ∃ v q, jEncElement conv jEncValue p = .ok v ∧ jDec conv v = .ok (some q) ∧
      q.meaning = p.meaning := by
  have hlegible : p.key.Legible conv :=
    ⟨h.key, h.key_lt.le.trans (by rw [maxStringLength]; norm_num)⟩
  obtain ⟨t, hkey, hkeyDec⟩ := UTF8String.jDec_jEnc hlegible
  obtain ⟨v, d, hvalue, hvalueDec, hcontent⟩ := henc p.value h.value
  refine ⟨_, ⟨p.key, d⟩, ?_, jDec_keyValue hkeyDec hvalueDec, ?_⟩
  · rw [jEncElement, hkey]
    show (do
      let value ← jEncValue conv p.value
      return keyValue (.stringValue t) value) = _
    rw [hvalue]
    rfl
  · rw [meaning, meaning, hcontent]

end AsnOptionalParam

/-! ### The list -/

namespace AsnOptionalParameters

open AsnOptionalParam

variable {conv : StringConvert}

/-- The array format keeps the order. -/
theorem jDecArray_mapM
    {jEncValue : StringConvert → AsnOptionalParamChoice → Except Fault Value}
    (henc : ∀ c : AsnOptionalParamChoice, c.Plain conv → ∃ v d, jEncValue conv c = .ok v ∧
      AsnOptionalParamChoice.jDec conv v = .ok d ∧ d.content = c.content)
    {ps : List AsnOptionalParam} (hps : ∀ p ∈ ps, p.Plain conv) (done : List AsnOptionalParam) :
    ∃ vs qs, ps.mapM (jEncElement conv jEncValue) = .ok vs ∧
      jDecArray conv vs done = .ok (some (done ++ qs)) ∧ qs.map meaning = ps.map meaning := by
  induction ps generalizing done with
  | nil => exact ⟨[], [], rfl, by rw [jDecArray, List.append_nil], rfl⟩
  | cons p ps ih =>
      rw [List.forall_mem_cons] at hps
      obtain ⟨v, q, hv, hq, hmeaning⟩ := jDec_jEncElement henc hps.1
      obtain ⟨vs, qs, hvs, hqs, hmeanings⟩ := ih hps.2 (done ++ [q])
      refine ⟨v :: vs, q :: qs, ?_, ?_, by rw [List.map_cons, List.map_cons, hmeaning, hmeanings]⟩
      · rw [List.mapM_cons, hv, AsnOcts.ok_bind, hvs]
        rfl
      · rw [jDecArray, hq, AsnOcts.ok_bind]
        dsimp only
        rw [hqs, List.append_assoc, List.singleton_append]

/-- A member that stands for a parameter. -/
structure EntryOf (conv : StringConvert) (e : List Octet × Value) (p : AsnOptionalParam) : Prop where
  plain : p.Plain conv
  name : e.1 = p.key.getUTF8 conv
  value : ∃ d, AsnOptionalParamChoice.jDec conv e.2 = .ok d ∧ d.content = p.value.content

theorem names_eq {es : List (List Octet × Value)} {ps : List AsnOptionalParam}
    (h : List.Forall₂ (EntryOf conv) es ps) :
    es.map Prod.fst = (ps.map key).map (UTF8String.getUTF8 conv) := by
  induction h with
  | nil => rfl
  | cons he _ ih => rw [List.map_cons, List.map_cons, List.map_cons, he.name, ih]

/-- The loop of `JEnc` puts in one member for each parameter. -/
theorem foldlM_setMember {ps : List AsnOptionalParam} (hps : ∀ p ∈ ps, p.Plain conv)
    (members : List (List Octet × Value)) :
    ∃ es, List.Forall₂ (EntryOf conv) es ps ∧
      (ps.foldlM (fun b p => do
        let v ← p.value.jEnc conv
        return Value.setMember b (p.key.getUTF8 conv) v) members : Except Fault _) =
      .ok (es.foldl (fun m e => SortedMap.insert Value.memberRank e.1 e.2 m) members) := by
  induction ps generalizing members with
  | nil => exact ⟨[], .nil, rfl⟩
  | cons p ps ih =>
      rw [List.forall_mem_cons] at hps
      obtain ⟨v, d, hv, hd, hcontent⟩ := AsnOptionalParamChoice.jDec_jEnc hps.1.value
      obtain ⟨es, hes, hfold⟩ :=
        ih hps.2 (SortedMap.insert Value.memberRank (p.key.getUTF8 conv) v members)
      refine ⟨(p.key.getUTF8 conv, v) :: es, .cons ⟨hps.1, rfl, d, hd, hcontent⟩ hes, ?_⟩
      rw [List.foldlM_cons, hv, AsnOcts.ok_bind, pure_bind, Value.setMember,
        Value.czString_eq hps.1.key_lt]
      exact hfold

/-- The loop of `JDec` over members that stand for parameters. -/
theorem jDecMembers_eq {members : List (List Octet × Value)}
    (hsorted : SortedMap.Sorted Value.memberRank members) {todo : List (List Octet × Value)}
    {ps : List AsnOptionalParam} (hmem : ∀ e ∈ todo, e ∈ members)
    (htodo : List.Forall₂ (EntryOf conv) todo ps) (done : List AsnOptionalParam) :
    ∃ qs, jDecMembers conv members (Value.getMemberNames todo) done = .ok (some (done ++ qs)) ∧
      qs.map meaning = ps.map meaning := by
  induction htodo generalizing done with
  | nil => exact ⟨[], by rw [Value.getMemberNames, List.map_nil, jDecMembers, List.append_nil], rfl⟩
  | @cons e p todo ps he _ ih =>
      rw [List.forall_mem_cons] at hmem
      obtain ⟨d, hd, hcontent⟩ := he.value
      obtain ⟨qs, hqs, hmeanings⟩ := ih hmem.2 (done ++ [⟨p.key, d⟩])
      have hfind : Value.find members e.1 = some e.2 := by
        rw [Value.find, he.name, Value.czString_eq he.plain.key_lt, ← he.name]
        exact SortedMap.find_of_mem hsorted hmem.1
      refine ⟨⟨p.key, d⟩ :: qs, ?_, ?_⟩
      · rw [Value.getMemberNames, List.map_cons, jDecMembers, hfind, Option.getD_some, hd,
          AsnOcts.ok_bind, he.name, he.plain.key]
        rw [Value.getMemberNames] at hqs
        rw [hqs, List.append_assoc, List.singleton_append]
      · rw [List.map_cons, List.map_cons, hmeanings, meaning, meaning, hcontent]

/-- The parameters that come back are in the order of their keys. -/
def InOrder (conv : StringConvert) (qs : List AsnOptionalParam) : Prop :=
  qs.Pairwise fun q q' =>
    Value.memberRank (q.key.getUTF8 conv) < Value.memberRank (q'.key.getUTF8 conv)

/-- The object format. -/
theorem jDec_jEnc {ps : List AsnOptionalParam} (hkeys : (ps.map key).Nodup)
    (hps : ∀ p ∈ ps, p.Plain conv) :
    ∃ v qs, jEnc conv ps = .ok v ∧ jDec conv v = .ok (some qs) ∧
      (qs.map meaning).Perm (ps.map meaning) ∧ InOrder conv qs := by
  obtain ⟨es, hes, hfold⟩ := @foldlM_setMember conv ps.reverse
    (fun p hp => hps p (List.mem_reverse.mp hp)) []
  -- the members have different names, because the keys can be read from them
  have hdistinct : es.Pairwise fun e e' => Value.memberRank e.1 ≠ Value.memberRank e'.1 := by
    have hreverse : (ps.reverse.map key).Nodup := by
      rw [List.map_reverse]
      exact List.nodup_reverse.mpr hkeys
    have hnames : (es.map Prod.fst).map (UTF8String.setUTF8 conv) = ps.reverse.map key := by
      rw [names_eq hes, List.map_map, List.map_map]
      exact List.map_congr_left fun p hp => (hps p (List.mem_reverse.mp hp)).key
    have hnodup := List.Nodup.of_map _ (hnames ▸ hreverse)
    exact (List.pairwise_map.mp hnodup).imp fun hne hrank => hne (Value.memberRank_injective hrank)
  obtain ⟨hsorted, hperm⟩ := @SortedMap.foldl_insert _ _ _ _ Value.memberRank es []
    List.Pairwise.nil hdistinct
    (fun _ _ _ h => absurd h List.not_mem_nil)
  rw [List.append_nil] at hperm
  obtain ⟨ws, hws, hwsPerm⟩ := List.perm_comp_forall₂ hperm hes
  obtain ⟨qs, hqs, hmeanings⟩ := jDecMembers_eq hsorted (fun e he => he) hws []
  refine ⟨.objectValue _, qs, ?_, hqs, ?_, ?_⟩
  · rw [jEnc, hfold, AsnOcts.ok_bind]
    rfl
  · rw [hmeanings]
    exact (hwsPerm.trans (List.reverse_perm ps)).map meaning
  · have hkeysEq : qs.map key = ws.map key := by
      have hfst := congrArg (List.map Prod.fst) hmeanings
      rwa [List.map_map, List.map_map] at hfst
    have hnames : (qs.map key).map (UTF8String.getUTF8 conv) = (es.foldl (fun m e =>
        SortedMap.insert Value.memberRank e.1 e.2 m) []).map Prod.fst := by
      rw [hkeysEq, names_eq hws]
    have hranks : ((qs.map key).map (UTF8String.getUTF8 conv)).Pairwise fun name name' =>
        Value.memberRank name < Value.memberRank name' := by
      rw [hnames]
      exact List.pairwise_map.mpr hsorted
    rwa [List.map_map, List.pairwise_map] at hranks

/-- Plain parameters with different keys come back from the object in the order of their
keys, and from an array in their own order, whether its values are in the old or in the new
format. -/
theorem optionalParameters_json (conv : StringConvert) {ps : List AsnOptionalParam}
    (hkeys : (ps.map key).Nodup) (hps : ∀ p ∈ ps, p.Plain conv) :
    (∃ v qs, jEnc conv ps = .ok v ∧ jDec conv v = .ok (some qs) ∧
      (qs.map meaning).Perm (ps.map meaning) ∧ InOrder conv qs) ∧
    (∃ vs qs, ps.mapM (jEncElement conv AsnOptionalParamChoice.jEncOld) = .ok vs ∧
      jDec conv (.arrayValue vs) = .ok (some qs) ∧ qs.map meaning = ps.map meaning) ∧
    ∃ vs qs, ps.mapM (AsnOptionalParam.jEnc conv) = .ok vs ∧
      jDec conv (.arrayValue vs) = .ok (some qs) ∧ qs.map meaning = ps.map meaning :=
  ⟨jDec_jEnc hkeys hps,
    jDecArray_mapM (fun _ hc => AsnOptionalParamChoice.jDec_jEncOld hc) hps [],
    jDecArray_mapM (fun _ hc => AsnOptionalParamChoice.jDec_jEnc hc) hps []⟩

/-- The conversion of the characters below 128. -/
def asciiConvert : StringConvert where
  utf8ToWide s := if s.all (·.toNat < 128) then some (s.map (BitVec.setWidth 32)) else none
  wideToUTF8 w := if w.all (·.toNat < 128) then some (w.map (BitVec.setWidth 8)) else none

theorem optionalParameters_json_two :
    ∃ v qs, jEnc asciiConvert [⟨[0x62], .integerdata ⟨7, [7]⟩⟩, ⟨[0x61], .stringdata [0x78]⟩] =
        .ok v ∧ jDec asciiConvert v = .ok (some qs) ∧
      (qs.map meaning).Perm [([0x62], .integer 7), ([0x61], .text [0x78])] ∧
      InOrder asciiConvert qs :=
  (@optionalParameters_json asciiConvert
    [⟨[0x62], .integerdata ⟨7, [7]⟩⟩, ⟨[0x61], .stringdata [0x78]⟩] (by decide) (by
      rw [List.forall_mem_cons, List.forall_mem_singleton]
      exact ⟨⟨by decide, by decide, by decide, by decide, by decide⟩,
        ⟨by decide, by decide, ⟨by decide, by decide⟩⟩⟩)).1

/-- The parameters come back from the output as the list they were. -/
def RoundTrips (conv : StringConvert) (ps : List AsnOptionalParam) : Prop :=
  ∃ v qs, jEnc conv ps = .ok v ∧ jDec conv v = .ok (some qs) ∧ qs.map meaning = ps.map meaning

/-- Two parameters come back in the other order, and an integer that is too large for an
`int` is refused. -/
theorem not_optionalParameters_json :
    (¬ ∀ ps : List AsnOptionalParam, (ps.map key).Nodup → RoundTrips asciiConvert ps) ∧
    ¬ RoundTrips asciiConvert [⟨[0x61], .integerdata ⟨2 ^ 31, [0, 0x80, 0, 0, 0]⟩⟩] := by
  constructor
  · intro h
    obtain ⟨v, qs, hv, hqs, hmeanings⟩ :=
      h [⟨[0x62], .integerdata ⟨1, [1]⟩⟩, ⟨[0x61], .integerdata ⟨2, [2]⟩⟩] (by decide)
    have hrun : (jEnc asciiConvert [⟨[0x62], .integerdata ⟨1, [1]⟩⟩,
        ⟨[0x61], .integerdata ⟨2, [2]⟩⟩] >>= jDec asciiConvert) =
      .ok (some [⟨[0x61], .integerdata ⟨2, [2]⟩⟩, ⟨[0x62], .integerdata ⟨1, [1]⟩⟩]) := rfl
    rw [hv, AsnOcts.ok_bind, hqs] at hrun
    cases hrun
    exact absurd hmeanings (by decide)
  · rintro ⟨v, qs, hv, hqs, -⟩
    have hrun : (jEnc asciiConvert [⟨[0x61], .integerdata ⟨2 ^ 31, [0, 0x80, 0, 0, 0]⟩⟩] >>=
      jDec asciiConvert) = .error (invalidTagException "no valid choice member") := rfl
    rw [hv, AsnOcts.ok_bind, hqs] at hrun
    cases hrun

end AsnOptionalParameters

end Esnacc
