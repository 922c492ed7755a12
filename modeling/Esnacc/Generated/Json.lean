import Esnacc.Generated.Names

/-!
The JSON codecs that the compiler writes for SEQUENCE and CHOICE types. An emitted method is a
walk over the elements of the type, so it is a function of the list of them here. The classes of
the elements are parameters: the value of an element is what its own `JEnc` writes and `JDec`
reads back.
-/

namespace Esnacc.Generated

open BitString SJson

/-- The rows of `typeConvTbl`, as far as they differ in what is held by a pointer. A reference
has the row of the type it refers to. -/
inductive TypeRow
  | external | extension | other
  deriving DecidableEq, Repr

namespace TypeRow

def isPtrForOpt : TypeRow → Bool := fun _ => true

def isPtrInChoice : TypeRow → Bool := fun _ => true

def isPtrInSetAndSeq : TypeRow → Bool
  | external => true
  | extension | other => false

end TypeRow

/-- A class with its `JEnc` and `JDec`. The second gives nothing where it returns false. -/
structure JsonClass (α : Type) where
  IsValue : α → Prop
  jEnc : α → Except Fault Value
  jDec : Value → Except Fault (Option α)
  inhabited : ∃ x, IsValue x
  recovers : ∀ x, IsValue x → ∃ v, jEnc x = .ok v ∧ jDec v = .ok (some x)

/-- An element of a SEQUENCE or a CHOICE. -/
structure JsonElmt (α : Type) where
  named : Named
  row : TypeRow
  optional : Bool
  cls : JsonClass α

namespace JsonElmt

variable {α : Type}

/-- `choiceId == BASICTYPE_EXTENSION`. -/
def isExtension (e : JsonElmt α) : Bool := e.row = .extension

/-- `IsCxxPtr` in a SEQUENCE. -/
def isPtr (e : JsonElmt α) : Bool :=
  e.row.isPtrInSetAndSeq || (e.optional && e.row.isPtrForOpt)

end JsonElmt

/-- Elements with the names of their C++ members, which are literals in the emitted code. -/
structure JsonType (α : Type) where
  isCxxKeyWord : Name → Bool
  elmts : List (JsonElmt α)
  literals : ∀ n ∈ fillCxxFieldNames isCxxKeyWord (elmts.map JsonElmt.named), n.length < 2 ^ 30

/-- What the members of an emitted class hold: by a pointer that is not null, or by value. -/
abbrev Members (α : Type) := List (Option α)

variable {α : Type}

def JsonType.names (t : JsonType α) : List Name :=
  fillCxxFieldNames t.isCxxKeyWord (t.elmts.map JsonElmt.named)

def JsonType.named (t : JsonType α) : List (Name × JsonElmt α) := t.names.zip t.elmts

/-! ### SEQUENCE -/

/-- The statements of `PrintSeqDefCodeJsonEnc`, from a member on. A member that is not OPTIONAL
is accessed without a test. -/
def jEncMembers : List (Name × JsonElmt α) → Members α → List (List Octet × Value) →
    Except Fault (List (List Octet × Value))
  | (varName, e) :: elmts, member :: members, b =>
      if e.isExtension then jEncMembers elmts members b
      else
        match member with
        | some x => do
            let v ← e.cls.jEnc x
            jEncMembers elmts members (Value.setMember b varName v)
        | none =>
            if e.optional then jEncMembers elmts members b
            else .error (.undefinedBehaviour "member access through a null pointer")
  | _, _, b => .ok b

/-- `JEnc`. -/
def JsonType.jEnc (t : JsonType α) (members : Members α) : Except Fault Value :=
  (jEncMembers t.named members []).map .objectValue

/-- The statements of `PrintSeqDefCodeJsonDec`, from a member on. `Clear` has left no member
that is held by a pointer. -/
def jDecMembers : List (Name × JsonElmt α) → List (List Octet × Value) → Except Fault (Members α)
  | [], _ => .ok []
  | (varName, e) :: elmts, b =>
      if e.isExtension then (jDecMembers elmts b).map (none :: ·)
      else
        match Value.find b varName with
        | some v => do
            match ← e.cls.jDec v with
            | none => .error (invalidTagException "decode failed")
            | some x => (jDecMembers elmts b).map (some x :: ·)
        | none =>
            if e.isPtr then (jDecMembers elmts b).map (none :: ·)
            else .error (invalidTagException "not found")

/-- `JDec`. -/
def JsonType.jDec (t : JsonType α) : Value → Except Fault (Option (Members α))
  | .objectValue b => (jDecMembers t.named b).map some
  | _ => .ok none

/-- What a member can hold in a value of the type. The marker is not a member. -/
def IsMember (e : JsonElmt α) : Option α → Prop
  | some x => e.isExtension = false ∧ e.cls.IsValue x
  | none => e.isExtension = true ∨ e.optional = true

def JsonType.IsValue (t : JsonType α) (members : Members α) : Prop :=
  List.Forall₂ IsMember t.elmts members

/-- A member that an object has to have. -/
def JsonElmt.IsMandatory (e : JsonElmt α) : Prop := e.isExtension = false ∧ e.optional = false

/-- The emitted codec of a SEQUENCE does what it is for. -/
structure JsonType.SequenceCodec (t : JsonType α) : Prop where
  declared : t.names.Nodup
  recovers : ∀ members, t.IsValue members →
    ∃ v, t.jEnc members = .ok v ∧ t.jDec v = .ok (some members)
  rejects : ∀ b n e, (n, e) ∈ t.named → e.IsMandatory → Value.find b n = none →
    ∀ members, t.jDec (.objectValue b) ≠ .ok (some members)

/-- What `JDec` finds of a member in an object. -/
def FoundAs (b : List (List Octet × Value)) (ne : Name × JsonElmt α) : Option α → Prop
  | some x => ne.2.isExtension = false ∧
      ∃ v, Value.find b ne.1 = some v ∧ ne.2.cls.jDec v = .ok (some x)
  | none => ne.2.isExtension = true ∨ (Value.find b ne.1 = none ∧ ne.2.isPtr = true)

theorem jDecMembers_of_found {elmts : List (Name × JsonElmt α)} {members : Members α}
    {b : List (List Octet × Value)} (h : List.Forall₂ (FoundAs b) elmts members) :
    jDecMembers elmts b = .ok members := by
  induction h with
  | nil => rfl
  | @cons ne member elmts members hfound hrest ih =>
      obtain ⟨n, e⟩ := ne
      cases member with
      | some x =>
          obtain ⟨hext, v, hfind, hdec⟩ := hfound
          simp only at hext hfind hdec
          rw [jDecMembers, hext, hfind]
          simp only [Bool.false_eq_true, if_false, hdec, ih]
          rfl
      | none =>
          rw [jDecMembers, ih]
          rcases hfound with hext | ⟨hfind, hptr⟩
          · simp only at hext
            rw [hext]
            rfl
          · simp only at hfind hptr
            rw [hfind, hptr]
            cases e.isExtension <;> rfl

/-- A mandatory member that is held by value has to be there. -/
theorem jDecMembers_missing {elmts : List (Name × JsonElmt α)} {b : List (List Octet × Value)}
    {n : Name} {e : JsonElmt α} (hmem : (n, e) ∈ elmts) (hext : e.isExtension = false)
    (hptr : e.isPtr = false) (hfind : Value.find b n = none) (members : Members α) :
    jDecMembers elmts b ≠ .ok members := by
  induction elmts generalizing members with
  | nil => cases hmem
  | cons ne elmts ih =>
      obtain ⟨n', e'⟩ := ne
      intro h
      rw [jDecMembers] at h
      rcases List.mem_cons.mp hmem with heq | hmem
      · cases heq
        rw [hext, hfind, hptr] at h
        cases h
      · have hrest : ∀ (x : Option α) (members : Members α),
            (jDecMembers elmts b).map (x :: ·) ≠ .ok members := by
          intro x members hmap
          cases hdec : jDecMembers elmts b with
          | error f =>
              rw [hdec] at hmap
              cases hmap
          | ok ms => exact ih hmem ms hdec
        split at h
        · exact hrest _ _ h
        · split at h
          · rename_i v _
            cases hdec : e'.cls.jDec v with
            | error f =>
                rw [hdec] at h
                cases h
            | ok x =>
                rw [hdec] at h
                cases x with
                | none => cases h
                | some x => exact hrest _ _ h
          · split at h
            · exact hrest _ _ h
            · cases h

theorem find_setMember {b : List (List Octet × Value)} {n n' : Name} (hn : n.length < 2 ^ 30)
    (hn' : n'.length < 2 ^ 30) (v : Value) :
    Value.find (Value.setMember b n v) n' = if n' = n then some v else Value.find b n' := by
  rw [Value.find, Value.setMember, SortedMap.find_insert, Value.czString_eq hn,
    Value.czString_eq hn', Value.find, Value.czString_eq hn']
  simp only [Value.memberRank_injective.eq_iff]

/-- A member in the object that `JEnc` has written. -/
def WrittenAs (b : List (List Octet × Value)) (ne : Name × JsonElmt α) : Option α → Prop
  | some x => ne.2.isExtension = false ∧
      ∃ v, Value.find b ne.1 = some v ∧ ne.2.cls.jDec v = .ok (some x)
  | none => ne.2.isExtension = true ∨ (Value.find b ne.1 = none ∧ ne.2.optional = true)

theorem jEncMembers_written {elmts : List (Name × JsonElmt α)} {members : Members α}
    {b : List (List Octet × Value)} (hnames : (elmts.map Prod.fst).Nodup)
    (hshort : ∀ ne ∈ elmts, ne.1.length < 2 ^ 30)
    (hvalue : List.Forall₂ (fun ne x => IsMember ne.2 x) elmts members)
    (hfresh : ∀ ne ∈ elmts, Value.find b ne.1 = none) :
    ∃ b', jEncMembers elmts members b = .ok b' ∧
      (∀ n : Name, n.length < 2 ^ 30 → n ∉ elmts.map Prod.fst → Value.find b' n = Value.find b n) ∧
      List.Forall₂ (WrittenAs b') elmts members := by
  induction hvalue generalizing b with
  | nil => exact ⟨b, rfl, fun _ _ _ => rfl, .nil⟩
  | @cons ne member elmts members hmember hrest ih =>
      obtain ⟨n, e⟩ := ne
      obtain ⟨hn, hnames⟩ := List.nodup_cons.mp hnames
      obtain ⟨hshortn, hshort⟩ := List.forall_mem_cons.mp hshort
      obtain ⟨hfreshn, hfresh⟩ := List.forall_mem_cons.mp hfresh
      cases member with
      | some x =>
          obtain ⟨hext, hx⟩ := hmember
          obtain ⟨v, henc, hdec⟩ := e.cls.recovers x hx
          have hother : ∀ n' : Name, n'.length < 2 ^ 30 → n' ≠ n →
              Value.find (Value.setMember b n v) n' = Value.find b n' := by
            intro n' hn' hne
            rw [find_setMember hshortn hn', if_neg hne]
          obtain ⟨b', hrun, hframe, hwritten⟩ := @ih (Value.setMember b n v) hnames hshort
            fun ne hne => by
              have hne' : ne.1 ≠ n := fun heq => hn (List.mem_map.mpr ⟨ne, hne, heq⟩)
              rw [hother ne.1 (hshort ne hne) hne']
              exact hfresh ne hne
          refine ⟨b', ?_, fun n' hn' hout => ?_, .cons ⟨hext, v, ?_, hdec⟩ hwritten⟩
          · simp only at hext
            rw [jEncMembers, hext]
            simp only [Bool.false_eq_true, if_false, henc]
            exact hrun
          · rw [List.map_cons, List.mem_cons, not_or] at hout
            rw [hframe n' hn' hout.2, hother n' hn' hout.1]
          · rw [hframe n hshortn hn, find_setMember hshortn hshortn, if_pos rfl]
      | none =>
          obtain ⟨b', hrun, hframe, hwritten⟩ := ih hnames hshort hfresh
          refine ⟨b', ?_, fun n' hn' hout => ?_, .cons ?_ hwritten⟩
          · rw [jEncMembers]
            rcases hmember with hext | hopt
            · simp only at hext
              rw [hext]
              exact hrun
            · simp only at hopt
              rw [hopt]
              cases e.isExtension <;> exact hrun
          · rw [List.map_cons, List.mem_cons, not_or] at hout
            exact hframe n' hn' hout.2
          · exact hmember.imp id fun hopt => ⟨(hframe n hshortn hn).trans hfreshn, hopt⟩

/-- What `JEnc` has written is what `JDec` finds. -/
theorem WrittenAs.foundAs {b : List (List Octet × Value)} {ne : Name × JsonElmt α}
    {member : Option α} (h : WrittenAs b ne member) : FoundAs b ne member := by
  cases member with
  | some x => exact h
  | none =>
      refine h.imp id fun ⟨habsent, hopt⟩ => ⟨habsent, ?_⟩
      rw [JsonElmt.isPtr, hopt]
      exact Bool.or_true _

namespace JsonType

variable (t : JsonType α)

theorem length_fillCxxFieldNames (isCxxKeyWord : Name → Bool) (elmts : List Named) :
    (fillCxxFieldNames isCxxKeyWord elmts).length = elmts.length := by
  have hnamed : ∀ (elmts : List Named) (nameList : List Name),
      (nameNamed isCxxKeyWord elmts nameList).1.length = elmts.length := by
    intro elmts
    induction elmts with
    | nil => exact fun _ => rfl
    | cons et elmts ih =>
        intro nameList
        rw [nameNamed]
        split
        · exact congrArg (· + 1) (ih _)
        · exact congrArg (· + 1) (ih _)
  have hothers : ∀ (elmts : List Named) (names : List (Option Name)) (nameList : List Name),
      names.length = elmts.length →
      (nameOthers isCxxKeyWord elmts names nameList).length = elmts.length := by
    intro elmts
    induction elmts with
    | nil => intro names _ h; rw [List.length_eq_zero_iff.mp h]; rfl
    | cons et elmts ih =>
        intro names nameList h
        cases names with
        | nil => cases h
        | cons name names =>
            have hlen : names.length = elmts.length := Nat.succ.inj h
            cases name with
            | none => exact congrArg (· + 1) (ih names _ hlen)
            | some name => exact congrArg (· + 1) (ih names _ hlen)
  exact hothers elmts _ _ (hnamed elmts [])

theorem length_names : t.names.length = t.elmts.length := by
  rw [names, length_fillCxxFieldNames, List.length_map]

theorem map_fst_named : t.named.map Prod.fst = t.names :=
  List.map_fst_zip t.length_names.le

theorem map_snd_named : t.named.map Prod.snd = t.elmts :=
  List.map_snd_zip t.length_names.ge

theorem length_name_lt {ne : Name × JsonElmt α} (h : ne ∈ t.named) : ne.1.length < 2 ^ 30 :=
  t.literals ne.1 (by rw [← names, ← map_fst_named]; exact List.mem_map_of_mem h)

theorem isValue_iff {members : Members α} :
    t.IsValue members ↔ List.Forall₂ (fun ne x => IsMember ne.2 x) t.named members := by
  rw [IsValue, ← map_snd_named, List.forall₂_map_left_iff]

/-- The value of every SEQUENCE comes back when its members have names of their own. -/
theorem jDec_jEnc (hnames : t.names.Nodup) {members : Members α} (h : t.IsValue members) :
    ∃ v, t.jEnc members = .ok v ∧ t.jDec v = .ok (some members) := by
  obtain ⟨b, henc, -, hwritten⟩ := @jEncMembers_written α t.named members []
    (by rw [map_fst_named]; exact hnames) (fun ne => t.length_name_lt) (t.isValue_iff.mp h)
    (fun _ _ => rfl)
  have hdec := jDecMembers_of_found (hwritten.imp fun _ _ => WrittenAs.foundAs)
  refine ⟨.objectValue b, ?_, ?_⟩
  · rw [jEnc, henc]
    rfl
  · rw [jDec, hdec]
    rfl

/-- An object that lacks a mandatory member which is held by a pointer, and nothing else. -/
theorem exists_jDec_of_isPtr (hnames : t.names.Nodup) {n : Name} {e : JsonElmt α}
    (hmem : (n, e) ∈ t.named) (hext : e.isExtension = false) (hptr : e.isPtr = true) :
    ∃ b members, Value.find b n = none ∧ t.jDec (.objectValue b) = .ok (some members) := by
  -- The object is written as if what a pointer holds were OPTIONAL.
  let lenient : Name × JsonElmt α → Name × JsonElmt α := fun ne =>
    (ne.1, { ne.2 with optional := ne.2.isPtr })
  let member : Name × JsonElmt α → Option α := fun ne =>
    if ne.1 = n ∨ ne.2.isExtension = true then none else some ne.2.cls.inhabited.choose
  have hfst : (t.named.map lenient).map Prod.fst = t.names := by
    rw [List.map_map, ← map_fst_named]
    rfl
  have hentry : ∀ ne ∈ t.named, ne.1 = n → ne = (n, e) := by
    intro ne hne heq
    have hinj := List.inj_on_of_nodup_map (by rw [map_fst_named]; exact hnames) hne hmem
    exact hinj heq
  have hvalue : List.Forall₂ (fun ne x => IsMember ne.2 x) (t.named.map lenient)
      (t.named.map member) := by
    rw [List.forall₂_map_left_iff, List.forall₂_map_right_iff, List.forall₂_same]
    intro ne hne
    by_cases habsent : ne.1 = n ∨ ne.2.isExtension = true
    · simp only [member, if_pos habsent]
      rcases habsent with heq | hext'
      · rw [hentry ne hne heq]
        exact .inr hptr
      · exact .inl hext'
    · simp only [member, if_neg habsent]
      rw [not_or, Bool.not_eq_true] at habsent
      exact ⟨habsent.2, ne.2.cls.inhabited.choose_spec⟩
  obtain ⟨b, -, -, hwritten⟩ := @jEncMembers_written α (t.named.map lenient)
    (t.named.map member) [] (by rw [hfst]; exact hnames)
    (fun ne hne => by
      obtain ⟨ne', hne', rfl⟩ := List.mem_map.mp hne
      have hlt := t.length_name_lt hne'
      exact hlt)
    hvalue (fun _ _ => rfl)
  rw [List.forall₂_map_left_iff] at hwritten
  have hfound : List.Forall₂ (FoundAs b) t.named (t.named.map member) :=
    hwritten.imp fun ne x h => by
      cases x with
      | some x => exact h
      | none => exact h
  refine ⟨b, t.named.map member, ?_, ?_⟩
  · rw [List.forall₂_map_right_iff, List.forall₂_same] at hfound
    have hn := hfound (n, e) hmem
    simp only [member, true_or, if_true] at hn
    rcases hn with hext' | hn
    · rw [hext] at hext'
      cases hext'
    · exact hn.1
  · rw [jDec, jDecMembers_of_found hfound]
    rfl

/-- The emitted codec is right exactly for the types whose members have names of their own and
whose mandatory members are held by value, which those of type EXTERNAL are not. -/
theorem sequenceCodec_iff :
    t.SequenceCodec ↔ t.names.Nodup ∧ ∀ e ∈ t.elmts, e.IsMandatory → e.row ≠ .external := by
  constructor
  · intro h
    refine ⟨h.declared, fun e he hmand hrow => ?_⟩
    rw [← map_snd_named] at he
    obtain ⟨⟨n, e'⟩, hmem, rfl⟩ := List.mem_map.mp he
    have hptr : e'.isPtr = true := by
      simp only at hrow
      rw [JsonElmt.isPtr, hrow]
      rfl
    obtain ⟨b, members, hfind, hdec⟩ := t.exists_jDec_of_isPtr h.declared hmem hmand.1 hptr
    exact h.rejects b n e' hmem hmand hfind members hdec
  · rintro ⟨hnames, hrow⟩
    refine ⟨hnames, fun members => t.jDec_jEnc hnames, fun b n e hmem hmand hfind members h => ?_⟩
    have he : e ∈ t.elmts := by
      rw [← map_snd_named]
      exact List.mem_map_of_mem hmem
    have hptr : e.isPtr = false := by
      rw [JsonElmt.isPtr, hmand.2, Bool.false_and, Bool.or_false]
      cases hr : e.row with
      | external => exact absurd hr (hrow e he hmand)
      | extension => rfl
      | other => rfl
    rw [jDec] at h
    cases hdec : jDecMembers t.named b with
    | error f =>
        rw [hdec] at h
        cases h
    | ok ms => exact jDecMembers_missing hmem hmand.1 hptr hfind ms hdec

end JsonType

end Esnacc.Generated
