import Esnacc.Generated.Json

/-!
The JSON codec of a CHOICE. The decoder is emitted as a chain of clauses, of which only the one
for the first element begins with `if`.
-/

namespace Esnacc.Generated

open BitString SJson

variable {α : Type}

/-- An object of the class of a CHOICE. An enumerator is the name of its alternative with `Cid`
behind it; the alternatives are pointers in a union. -/
structure ChoiceObject (α : Type) where
  choiceId : Option Name
  a : Option α
  deriving DecidableEq

/-- The `switch` of `PrintChoiceDefCodeJsonEnc`. -/
def jEncAlternatives : List (Name × JsonElmt α) → ChoiceObject α → Except Fault Value
  | [], _ => .error (except "Choice is empty" .encodeError)
  | (varName, e) :: elmts, obj =>
      if e.isExtension = false ∧ obj.choiceId = some varName then
        match obj.a with
        | some x => (e.cls.jEnc x).map fun v => .objectValue (Value.setMember [] varName v)
        | none => .error (.undefinedBehaviour "member access through a null pointer")
      else jEncAlternatives elmts obj

/-- The clauses that `PrintChoiceDefCodeJsonDec` prints. -/
inductive Clause (α : Type)
  | ifMember (varName : Name) (e : JsonElmt α)
  | elseIfMember (varName : Name) (e : JsonElmt α)
  | elseThrow

/-- The loop of `PrintChoiceDefCodeJsonDec` and what follows it. -/
def jDecClauses : ℕ → List (Name × JsonElmt α) → List (Clause α)
  | iCounter, (varName, e) :: elmts =>
      if e.isExtension then jDecClauses (iCounter + 1) elmts
      else
        (if iCounter = 0 then .ifMember varName e else .elseIfMember varName e) ::
          jDecClauses (iCounter + 1) elmts
  | iCounter, [] => if iCounter = 0 then [] else [.elseThrow]

/-- No `else` stands without an `if`. -/
def Clause.Chain : List (Clause α) → Prop
  | [] => True
  | .ifMember _ _ :: _ => True
  | .elseIfMember _ _ :: _ | .elseThrow :: _ => False

/-- The body of a clause. -/
def jDecAlternative (varName : Name) (e : JsonElmt α) (v : Value) :
    Except Fault (Option (ChoiceObject α)) := do
  match ← e.cls.jDec v with
  | none => .error (invalidTagException "decode failed")
  | some x => .ok (some ⟨some varName, some x⟩)

/-- `Clear` has left the object without an alternative. -/
def jDecChain : List (Clause α) → List (List Octet × Value) →
    Except Fault (Option (ChoiceObject α))
  | [], _ => .ok (some ⟨none, none⟩)
  | .ifMember varName e :: clauses, b | .elseIfMember varName e :: clauses, b =>
      match Value.find b varName with
      | some v => jDecAlternative varName e v
      | none => jDecChain clauses b
  | .elseThrow :: _, _ => .error (invalidTagException "no valid choice member")

namespace JsonType

/-- `JEnc`. -/
def jEncChoice (t : JsonType α) : ChoiceObject α → Except Fault Value := jEncAlternatives t.named

/-- `JDec`. -/
def jDecChoice (t : JsonType α) : Value → Except Fault (Option (ChoiceObject α))
  | .objectValue b => jDecChain (jDecClauses 0 t.named) b
  | _ => .ok none

/-- A value selects an alternative. -/
def IsChoiceValue (t : JsonType α) (obj : ChoiceObject α) : Prop :=
  ∃ n e x, (n, e) ∈ t.named ∧ e.isExtension = false ∧ e.cls.IsValue x ∧ obj = ⟨some n, some x⟩

/-- The emitted codec of a CHOICE does what it is for. -/
structure ChoiceCodec (t : JsonType α) : Prop where
  declared : t.names.Nodup
  compiles : Clause.Chain (jDecClauses 0 t.named)
  recovers : ∀ obj, t.IsChoiceValue obj →
    ∃ v, t.jEncChoice obj = .ok v ∧ t.jDecChoice v = .ok (some obj)
  rejects : ∀ b, (∀ ne ∈ t.named, ne.2.isExtension = false → Value.find b ne.1 = none) →
    ∀ obj, t.jDecChoice (.objectValue b) ≠ .ok (some obj)

end JsonType

theorem jEncAlternatives_of_mem {elmts : List (Name × JsonElmt α)}
    (hnames : (elmts.map Prod.fst).Nodup) {n : Name} {e : JsonElmt α} (hmem : (n, e) ∈ elmts)
    (hext : e.isExtension = false) (x : α) :
    jEncAlternatives elmts ⟨some n, some x⟩ =
      (e.cls.jEnc x).map fun v => .objectValue (Value.setMember [] n v) := by
  induction elmts with
  | nil => cases hmem
  | cons ne elmts ih =>
      obtain ⟨hne, hnames⟩ := List.nodup_cons.mp hnames
      rw [jEncAlternatives]
      rcases List.mem_cons.mp hmem with heq | hmem
      · subst heq
        rw [if_pos ⟨hext, rfl⟩]
      · have hother : (some n : Option Name) ≠ some ne.1 := by
          intro heq
          exact hne (Option.some.inj heq ▸ List.mem_map_of_mem hmem)
        rw [if_neg fun h => hother h.2]
        exact ih hnames hmem

/-- The clause of the only alternative that the object has is taken. -/
theorem jDecChain_of_find {elmts : List (Name × JsonElmt α)} {b : List (List Octet × Value)}
    (hnames : (elmts.map Prod.fst).Nodup) {n : Name} {e : JsonElmt α} (hmem : (n, e) ∈ elmts)
    (hext : e.isExtension = false) {v : Value} (hfind : Value.find b n = some v)
    (hother : ∀ ne ∈ elmts, ne.1 ≠ n → Value.find b ne.1 = none) (i : ℕ) :
    jDecChain (jDecClauses i elmts) b = jDecAlternative n e v := by
  induction elmts generalizing i with
  | nil => cases hmem
  | cons ne elmts ih =>
      obtain ⟨n', e'⟩ := ne
      obtain ⟨hne, hnames⟩ := List.nodup_cons.mp hnames
      obtain ⟨hothern, hother⟩ := List.forall_mem_cons.mp hother
      rw [jDecClauses]
      rcases List.mem_cons.mp hmem with heq | hmem
      · cases heq
        rw [hext]
        split
        · contradiction
        · split <;> rw [jDecChain, hfind]
      · have hn' : n' ≠ n := by
          intro heq
          exact hne (List.mem_map.mpr ⟨(n, e), hmem, heq.symm⟩)
        have habsent : Value.find b n' = none := hothern hn'
        split
        · exact ih hnames hmem hother _
        · split <;> rw [jDecChain, habsent] <;> exact ih hnames hmem hother _

/-- Without an alternative the chain ends in its last clause. -/
theorem jDecChain_of_absent {elmts : List (Name × JsonElmt α)} {b : List (List Octet × Value)}
    (habsent : ∀ ne ∈ elmts, ne.2.isExtension = false → Value.find b ne.1 = none) (i : ℕ) :
    jDecChain (jDecClauses i elmts) b =
      if i + elmts.length = 0 then .ok (some ⟨none, none⟩)
      else .error (invalidTagException "no valid choice member") := by
  induction elmts generalizing i with
  | nil =>
      rw [jDecClauses, List.length_nil, Nat.add_zero]
      split <;> rfl
  | cons ne elmts ih =>
      obtain ⟨n, e⟩ := ne
      obtain ⟨habsentn, habsent⟩ := List.forall_mem_cons.mp habsent
      have hrest := ih habsent (i + 1)
      rw [if_neg (by omega)] at hrest
      have hlen : ¬ i + ((n, e) :: elmts).length = 0 := by
        rw [List.length_cons]
        omega
      rw [jDecClauses, if_neg hlen]
      cases hext : e.isExtension with
      | true => exact hrest
      | false =>
          rw [if_neg Bool.false_ne_true]
          split <;> rw [jDecChain, habsentn hext] <;> exact hrest

/-- After the first element every clause begins with `else`. -/
theorem not_chain_of_pos (elmts : List (Name × JsonElmt α)) {i : ℕ} (hi : i ≠ 0) :
    ¬ Clause.Chain (jDecClauses i elmts) := by
  induction elmts generalizing i with
  | nil =>
      rw [jDecClauses, if_neg hi]
      exact id
  | cons ne elmts ih =>
      rw [jDecClauses, if_neg hi]
      split
      · exact ih (Nat.succ_ne_zero i)
      · exact id

namespace JsonType

variable (t : JsonType α)

theorem jDecChoice_jEncChoice (hnames : t.names.Nodup) {obj : ChoiceObject α}
    (h : t.IsChoiceValue obj) :
    ∃ v, t.jEncChoice obj = .ok v ∧ t.jDecChoice v = .ok (some obj) := by
  obtain ⟨n, e, x, hmem, hext, hx, rfl⟩ := h
  obtain ⟨v, henc, hdec⟩ := e.cls.recovers x hx
  have hn := t.length_name_lt hmem
  rw [← map_fst_named] at hnames
  refine ⟨.objectValue (Value.setMember [] n v), ?_, ?_⟩
  · rw [jEncChoice, jEncAlternatives_of_mem hnames hmem hext, henc]
    rfl
  · rw [jDecChoice, jDecChain_of_find hnames hmem hext
      (by rw [find_setMember hn hn, if_pos rfl])
      (fun ne hne hother => by
        rw [find_setMember hn (t.length_name_lt hne), if_neg hother]
        rfl), jDecAlternative, hdec]
    rfl

/-- The emitted codec is right exactly for the types whose alternatives have names of their own
and of which the first is not the extension marker. -/
theorem choiceCodec_iff :
    t.ChoiceCodec ↔
      t.names.Nodup ∧ ∃ e elmts, t.elmts = e :: elmts ∧ e.isExtension = false := by
  have hsnd := t.map_snd_named
  constructor
  · intro h
    refine ⟨h.declared, ?_⟩
    cases helmts : t.named with
    | nil =>
        have hrun : t.jDecChoice (.objectValue []) = .ok (some ⟨none, none⟩) := by
          rw [jDecChoice, helmts]
          rfl
        have hnone : ∀ ne ∈ t.named, ne.2.isExtension = false → Value.find [] ne.1 = none :=
          fun _ _ _ => rfl
        exact absurd hrun (h.rejects [] hnone _)
    | cons ne elmts =>
        rw [helmts, List.map_cons] at hsnd
        refine ⟨ne.2, elmts.map Prod.snd, hsnd.symm, ?_⟩
        cases hext : ne.2.isExtension with
        | false => rfl
        | true =>
            have hchain := h.compiles
            rw [helmts, jDecClauses, hext, if_pos rfl] at hchain
            exact absurd hchain (not_chain_of_pos elmts Nat.one_ne_zero)
  · rintro ⟨hnames, e, elmts, helmts, hext⟩
    rw [helmts] at hsnd
    refine ⟨hnames, ?_, fun obj => t.jDecChoice_jEncChoice hnames, fun b habsent obj h => ?_⟩
    · cases hnamed : t.named with
      | nil => exact trivial
      | cons ne rest =>
          rw [hnamed, List.map_cons, List.cons.injEq] at hsnd
          rw [jDecClauses, hsnd.1, hext]
          exact trivial
    · rw [jDecChoice, jDecChain_of_absent habsent 0, if_neg] at h
      · cases h
      · intro hlen
        have hnil := List.length_eq_zero_iff.mp (Nat.zero_add _ ▸ hlen)
        rw [hnil] at hsnd
        cases hsnd

end JsonType

/-- A class with one value, which is written as null. -/
def nullClass : JsonClass Unit where
  IsValue _ := True
  jEnc _ := .ok .nullValue
  jDec _ := .ok (some ())
  inhabited := ⟨(), trivial⟩
  recovers _ _ := ⟨_, rfl, rfl⟩

/-- `SEQUENCE { ext EXTERNAL }`. -/
def externalMember : JsonType Unit where
  isCxxKeyWord _ := false
  elmts := [{ named := ⟨some (Value.name "ext"), Value.name "EXTERNAL"⟩, row := .external,
              optional := false, cls := nullClass }]
  literals := by decide

end Esnacc.Generated
