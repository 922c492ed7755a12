import Esnacc.Generated.ChoiceJson
import Esnacc.Generated.SequenceCodec

/-!
Members with a DEFAULT. The encoders leave such a member out when it has the default value; the
decoders begin with `Clear`, after which no pointer is set, and only touch what is on the wire.
The default value itself is known to `Init` alone, which no decoder calls.
-/

namespace Esnacc.Generated

open BitString SJson

/-- The objects of the types that a default value is compared with, and of all others. -/
inductive Cell (β : Type)
  | integer (value : ℤ)
  | boolean (value : Bool)
  | bits (value : List Bool)
  | other (value : β)
  deriving DecidableEq

/-- A default value: of an INTEGER or ENUMERATED, of a BOOLEAN, and of a named BIT STRING with one
bit or without any, which has `size` bits. -/
inductive DefaultVal
  | integer (value : ℤ)
  | boolean (value : Bool)
  | namedBit (size bit : ℕ)
  | noBits (size : ℕ)
  deriving DecidableEq, Repr

variable {β : Type}

/-- `IsEmpty`. -/
def isEmptyBits (bits : List Bool) : Bool := bits.all (! ·)

/-- `soloBitCheck`. -/
def soloBitCheck (b : ℕ) (bits : List Bool) : Bool :=
  bits.getD b false && isEmptyBits (bits.set b false)

/-- What the emitted default test takes for the default value. -/
def DefaultVal.isDefault : DefaultVal → Cell β → Bool
  | integer d, .integer value => value = d
  | boolean d, .boolean value => value = d
  | namedBit _ bit, .bits value => soloBitCheck bit value
  | noBits _, .bits value => isEmptyBits value
  | _, _ => false

/-- What `Init` allocates. -/
def DefaultVal.init : DefaultVal → Cell β
  | integer d => .integer d
  | boolean d => .boolean d
  | namedBit size bit => .bits ((List.replicate size false).set bit true)
  | noBits size => .bits (List.replicate size false)

/-- A fresh object has a value that the encoders leave out. -/
theorem DefaultVal.isDefault_init (d : DefaultVal)
    (h : ∀ size bit, d = namedBit size bit → bit < size) :
    d.isDefault (d.init : Cell β) = true := by
  cases d with
  | integer d => simp [isDefault, init]
  | boolean d => simp [isDefault, init]
  | noBits size => simp [isDefault, init, isEmptyBits]
  | namedBit size bit =>
      have hlt := h size bit rfl
      simp [isDefault, init, soloBitCheck, isEmptyBits, List.set_set, List.getD, hlt]

/-- An element of a SEQUENCE for both generators. One with a DEFAULT is held by a pointer, and is
written under a test as an OPTIONAL one is. -/
structure DefaultElmt (β : Type) where
  ber : BerElmt (Cell β)
  json : JsonElmt (Cell β)
  defaultVal : Option DefaultVal
  hasDefault_eq : ber.hasDefault = defaultVal.isSome
  optional_eq : json.optional = ber.isPtr
  extension_iff : json.isExtension = true ↔ ber.kind = .extension

namespace DefaultElmt

/-- `if (NOT_NULL(x) && *x != d)`. -/
def written (e : DefaultElmt β) (member : Option (Cell β)) : Option (Cell β) :=
  match e.defaultVal with
  | some d => member.filter fun x => !d.isDefault x
  | none => member

/-- The member has the default value. -/
def HasDefault (e : DefaultElmt β) (member : Option (Cell β)) : Prop :=
  ∃ d x, e.defaultVal = some d ∧ member = some x ∧ d.isDefault x = true

/-- The JSON encoder for an empty default opens a block that nothing closes. -/
def BalancedJson (e : DefaultElmt β) : Prop := ∀ size, e.defaultVal ≠ some (.noBits size)

theorem written_eq_iff (e : DefaultElmt β) (member : Option (Cell β)) :
    e.written member = member ↔ ¬ e.HasDefault member := by
  cases hd : e.defaultVal with
  | none => simp [written, HasDefault, hd]
  | some d =>
      cases member with
      | none => simp [written, HasDefault, hd]
      | some x =>
          cases hx : d.isDefault x with
          | true => simp [written, HasDefault, hd, Option.filter, hx]
          | false => simp [written, HasDefault, hd, Option.filter, hx]

/-- What is written of a member is the member, unless it may be absent. -/
theorem written_cases (e : DefaultElmt β) (member : Option (Cell β)) :
    e.written member = member ∨ (e.written member = none ∧ e.defaultVal.isSome = true) := by
  cases hd : e.defaultVal with
  | none => exact .inl (by rw [written, hd])
  | some d =>
      cases member with
      | none => exact .inl (by rw [written, hd]; rfl)
      | some x =>
          cases hx : d.isDefault x with
          | true => exact .inr ⟨by rw [written, hd]; simp [Option.filter, hx], rfl⟩
          | false => exact .inl (by rw [written, hd]; simp [Option.filter, hx])

end DefaultElmt

/-- The members that the encoders write. -/
def writtenMembers (elmts : List (DefaultElmt β)) (members : List (Option (Cell β))) :
    List (Option (Cell β)) :=
  List.zipWith DefaultElmt.written elmts members

/-- `BEncContent` and `BDecContent` bring every member back. -/
def SurvivesBer (elmts : List (DefaultElmt β)) (members : List (Option (Cell β)))
    (bytesDecoded : ℕ) (past rest : List Octet) : Prop :=
  let content := bEncSequence (elmts.map DefaultElmt.ber) (writtenMembers elmts members)
  Cursor.Reads past rest
    (bDecSequence (elmts.map DefaultElmt.ber) content.length bytesDecoded) content
    (⟨members, []⟩, bytesDecoded + content.length)

/-- `JEnc` is C++, and it and `JDec` bring every member back. -/
def SurvivesJson (elmts : List (DefaultElmt β)) (t : JsonType (Cell β))
    (members : List (Option (Cell β))) : Prop :=
  (∀ e ∈ elmts, e.BalancedJson) ∧
    ∃ v, t.jEnc (writtenMembers elmts members) = .ok v ∧ t.jDec v = .ok (some members)

/-- No member has its default value. -/
def NoDefaults (elmts : List (DefaultElmt β)) (members : List (Option (Cell β))) : Prop :=
  List.Forall₂ (fun e member => ¬ e.HasDefault member) elmts members

theorem writtenMembers_eq_iff {elmts : List (DefaultElmt β)} {members : List (Option (Cell β))}
    (hlen : elmts.length = members.length) :
    writtenMembers elmts members = members ↔ NoDefaults elmts members := by
  induction elmts generalizing members with
  | nil =>
      cases members with
      | nil => exact ⟨fun _ => .nil, fun _ => rfl⟩
      | cons o members => cases hlen
  | cons e elmts ih =>
      cases members with
      | nil => cases hlen
      | cons o members =>
          have hcons : writtenMembers (e :: elmts) (o :: members) =
              e.written o :: writtenMembers elmts members := rfl
          rw [hcons, List.cons.injEq, e.written_eq_iff, ih (Nat.succ.inj hlen), NoDefaults, NoDefaults,
            List.forall₂_cons]

/-- What is written is a value again, since a member with a DEFAULT may be absent. -/
theorem isSequenceValue_written {elmts : List (DefaultElmt β)} {members : List (Option (Cell β))}
    (h : IsSequenceValue (elmts.map DefaultElmt.ber) members) :
    IsSequenceValue (elmts.map DefaultElmt.ber) (writtenMembers elmts members) := by
  rw [IsSequenceValue, List.forall₂_map_left_iff] at h ⊢
  induction h with
  | nil => exact .nil
  | @cons e o elmts members hhold hrest ih =>
      refine .cons ?_ ih
      rcases e.written_cases o with heq | ⟨hnone, hsome⟩
      · rw [heq]
        exact hhold
      · rw [hnone]
        cases o with
        | none => exact hhold
        | some x =>
            have hd : e.ber.Decodes x := hhold
            right
            refine ⟨fun hkind => ?_, ?_⟩
            · rw [BerElmt.Decodes, hkind] at hd
              exact hd
            · rw [BerElmt.isPtr, e.hasDefault_eq, hsome, Bool.or_true]

theorem jsonIsValue_written {elmts : List (DefaultElmt β)} {members : List (Option (Cell β))}
    (h : List.Forall₂ IsMember (elmts.map DefaultElmt.json) members) :
    List.Forall₂ IsMember (elmts.map DefaultElmt.json) (writtenMembers elmts members) := by
  rw [List.forall₂_map_left_iff] at h ⊢
  induction h with
  | nil => exact .nil
  | @cons e o elmts members hhold hrest ih =>
      refine .cons ?_ ih
      rcases e.written_cases o with heq | ⟨hnone, hsome⟩
      · rw [heq]
        exact hhold
      · rw [hnone]
        right
        rw [e.optional_eq, BerElmt.isPtr, e.hasDefault_eq, hsome, Bool.or_true]

theorem survivesBer_iff {elmts : List (DefaultElmt β)}
    (hregular : Regular (elmts.map DefaultElmt.ber)) {members : List (Option (Cell β))}
    (hber : IsSequenceValue (elmts.map DefaultElmt.ber) members)
    (hlen : (bEncSequence (elmts.map DefaultElmt.ber) (writtenMembers elmts members)).length <
      2 ^ 32) (bytesDecoded : ℕ) (past rest : List Octet) :
    SurvivesBer elmts members bytesDecoded past rest ↔ NoDefaults elmts members := by
  obtain ⟨ps, hfits, hvalues, hcontents⟩ :=
    exists_pieces hregular.wellTagged hregular.readable (isSequenceValue_written hber) hlen
  have hread := bDecSequence_definite hfits (distinguished_of_tagsDiffer hfits hregular.tagsDiffer)
    hregular.additionsLast hregular.readsFirstTag
    (by rw [hcontents]; exact hlen.trans (by decide)) bytesDecoded past rest
  rw [hcontents, hvalues] at hread
  have hlength : elmts.length = members.length := by
    have hl := hber.length_eq
    rwa [List.length_map] at hl
  rw [← writtenMembers_eq_iff hlength]
  constructor
  · intro h
    have heq := Except.ok.inj (hread.symm.trans h)
    exact congrArg (fun r => r.1.1.members) heq
  · intro h
    rw [h] at hread
    rw [SurvivesBer, h]
    exact hread

theorem survivesJson_iff {elmts : List (DefaultElmt β)} {t : JsonType (Cell β)}
    (ht : t.elmts = elmts.map DefaultElmt.json) (hnames : t.names.Nodup)
    {members : List (Option (Cell β))} (hjson : t.IsValue members) :
    SurvivesJson elmts t members ↔ NoDefaults elmts members ∧ ∀ e ∈ elmts, e.BalancedJson := by
  have hvalue : t.IsValue (writtenMembers elmts members) := by
    rw [JsonType.IsValue, ht] at hjson ⊢
    exact jsonIsValue_written hjson
  have hlength : elmts.length = members.length := by
    have hl := hjson.length_eq
    rwa [ht, List.length_map] at hl
  obtain ⟨v, henc, hdec⟩ := t.jDec_jEnc hnames hvalue
  rw [SurvivesJson, ← writtenMembers_eq_iff hlength]
  constructor
  · rintro ⟨hbalanced, v', henc', hdec'⟩
    obtain rfl : v = v' := Except.ok.inj (henc.symm.trans henc')
    exact ⟨Option.some.inj (Except.ok.inj (hdec.symm.trans hdec')), hbalanced⟩
  · rintro ⟨heq, hbalanced⟩
    rw [heq] at hdec
    exact ⟨hbalanced, v, henc, hdec⟩

/-- `AsnBool`. -/
def flagClass : BerClass (Cell Unit) where
  bEncContent x := [if x = .boolean true then 0xFF else 0]
  bEnc _ := []
  bDecContent _ elmtLen n := do
    let x ← AsnBuf.getSeg elmtLen
    return (.boolean (x.headD 0 != 0), n + elmtLen)
  bDec n := return (.boolean false, n)

def flagJson : JsonClass (Cell Unit) where
  IsValue x := ∃ b, x = .boolean b
  jEnc x := .ok (.booleanValue (x = .boolean true))
  jDec
    | .booleanValue b => .ok (some (.boolean b))
    | _ => .ok none
  inhabited := ⟨.boolean false, false, rfl⟩
  recovers := by
    rintro _ ⟨b, rfl⟩
    cases b with
    | false => exact ⟨_, rfl, rfl⟩
    | true => exact ⟨_, rfl, rfl⟩

/-- `flag [0] BOOLEAN DEFAULT TRUE`. -/
def flagElmt : DefaultElmt Unit where
  ber :=
    { tags := [⟨.cntx, .prim, 0⟩], stoleChoiceTags := false, kind := .other, optional := false,
      hasDefault := true, extensionAddition := false, lenient := none, hasShortLen := true,
      cls := flagClass }
  json :=
    { named := ⟨some (Value.name "flag"), Value.name "AsnBool"⟩, row := .other, optional := true,
      cls := flagJson }
  defaultVal := some (.boolean true)
  hasDefault_eq := rfl
  optional_eq := rfl
  extension_iff := ⟨fun h => Bool.noConfusion h, fun h => Kind.noConfusion h⟩

def flagType : JsonType (Cell Unit) where
  isCxxKeyWord _ := false
  elmts := [flagElmt.json]
  literals := by decide

theorem flagElmt_decodes (b : Bool) : flagElmt.ber.Decodes (.boolean b) := by
  cases b with
  | false =>
      refine ⟨fun _ => by decide, fun tg _ past rest n => ?_⟩
      exact (AsnBuf.getSeg_reads past rest [0]).bind_pure fun y =>
        (Cell.boolean (y.headD 0 != 0), n + 1)
  | true =>
      refine ⟨fun _ => by decide, fun tg _ past rest n => ?_⟩
      exact (AsnBuf.getSeg_reads past rest [0xFF]).bind_pure fun y =>
        (Cell.boolean (y.headD 0 != 0), n + 1)

theorem regular_flagElmt : Regular ([flagElmt].map DefaultElmt.ber) where
  wellTagged := by
    intro e he
    obtain rfl := List.mem_singleton.mp he
    refine ⟨fun hs => Bool.noConfusion hs, fun _ => rfl, fun _ tg htg => ?_, fun tg htg => ?_⟩
    · obtain rfl := List.mem_singleton.mp htg
      exact ⟨by decide, fun hc => Compiler.TagClass.noConfusion hc.1⟩
    · cases htg
  readable := by
    intro e he _
    obtain rfl := List.mem_singleton.mp he
    exact List.cons_ne_nil _ _
  readsFirstTag := by
    intro e he
    cases he
    exact ⟨rfl, rfl⟩
  additionsLast := List.pairwise_singleton _ _
  tagsDiffer := ⟨fun _ e he => (List.not_mem_nil he).elim, trivial⟩

theorem flagType_nodup : flagType.names.Nodup := by decide

theorem isSequenceValue_flag (b : Bool) :
    IsSequenceValue ([flagElmt].map DefaultElmt.ber) [some (.boolean b)] :=
  .cons (show flagElmt.ber.Holds (some (.boolean b)) from flagElmt_decodes b) .nil

theorem isValue_flag (b : Bool) : flagType.IsValue [some (.boolean b)] :=
  .cons (show IsMember flagElmt.json (some (.boolean b)) from ⟨rfl, b, rfl⟩) .nil

end Esnacc.Generated
