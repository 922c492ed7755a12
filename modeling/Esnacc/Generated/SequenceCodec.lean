import Esnacc.Generated.ElementRoundTrip
import Esnacc.Ber.Any

/-!
The codec of a SEQUENCE as a whole: which types are read back from the encodings of their values.
-/

namespace Esnacc.Generated

open BitString Tlv
open Compiler (TagClass)

variable {α : Type}

/-- What a member can hold, with a class that decodes what it encodes. -/
def BerElmt.Holds (e : BerElmt α) : Option α → Prop
  | some x => e.Decodes x
  | none => (e.kind = .extension ∧ e.extensionAddition = true) ∨
      (e.kind ≠ .extension ∧ e.isPtr = true)

def IsSequenceValue (elmts : List (BerElmt α)) (members : List (Option α)) : Prop :=
  List.Forall₂ BerElmt.Holds elmts members

/-- The elements that can come next when the ones in front of them are absent. -/
def followers : List (BerElmt α) → List (BerElmt α)
  | [] => []
  | e :: elmts => if e.mayBeAbsent then e :: followers elmts else [e]

/-- No element accepts a tag that an absent element in front of it would take. -/
def TagsDiffer : List (BerElmt α) → Prop
  | [] => True
  | e :: elmts =>
      (e.isPtr = true → ∀ e' ∈ followers elmts, ∀ tag1, e'.test tag1 = true → e.test tag1 = false) ∧
        TagsDiffer elmts

/-- The elements of a SEQUENCE that the emitted code can tell apart and read. -/
structure Regular (elmts : List (BerElmt α)) : Prop where
  wellTagged : ∀ e ∈ elmts, e.WellTagged
  readable : ∀ e ∈ elmts, e.kind ≠ .extension → e.Readable
  readsFirstTag : ReadsFirstTag elmts
  additionsLast : AdditionsLast elmts
  tagsDiffer : TagsDiffer elmts

/-- The members of a value as they are written. -/
theorem exists_pieces {elmts : List (BerElmt α)} {members : List (Option α)}
    (hw : ∀ e ∈ elmts, e.WellTagged) (hr : ∀ e ∈ elmts, e.kind ≠ .extension → e.Readable)
    (hvalue : IsSequenceValue elmts members)
    (hlen : (bEncSequence elmts members).length < 2 ^ 32) :
    ∃ ps : List (Option (Piece α)), List.Forall₂ BerElmt.Fits elmts ps ∧ values ps = members ∧
      contents ps = bEncSequence elmts members := by
  induction hvalue with
  | nil => exact ⟨[], .nil, rfl, rfl⟩
  | @cons e o elmts members hhold hrest ih =>
      obtain ⟨hwe, hw⟩ := List.forall_mem_cons.mp hw
      obtain ⟨hre, hr⟩ := List.forall_mem_cons.mp hr
      have hsplit : bEncSequence (e :: elmts) (o :: members) =
          o.elim [] e.bEncElmt ++ bEncSequence elmts members := by
        rw [bEncSequence, List.zipWith_cons_cons, List.flatten_cons]
        rfl
      rw [hsplit, List.length_append] at hlen
      obtain ⟨ps, hfits, hvalues, hcontents⟩ := ih hw hr (by omega)
      cases o with
      | none => exact ⟨none :: ps, .cons hhold hfits, congrArg (none :: ·) hvalues, hcontents⟩
      | some x =>
          have hext : e.kind ≠ .extension := by
            intro hkind
            have hd : e.Decodes x := hhold
            rw [BerElmt.Decodes, hkind] at hd
            exact hd
          have hle : (e.bEncElmt x).length < 2 ^ 32 := by
            rw [Option.elim_some] at hlen
            omega
          obtain ⟨p, rfl, hwritten, hrec⟩ := BerElmt.recovers_of_decodes hwe (hre hext) hhold hle
          refine ⟨some p :: ps, .cons hrec hfits, congrArg (some p.value :: ·) hvalues, ?_⟩
          rw [hsplit, Option.elim_some, ← hwritten, ← hcontents]
          rfl

/-- The first member that is present belongs to one of the elements that can come next. -/
theorem recovers_follower {elmts : List (BerElmt α)} {ps : List (Option (Piece α))} {p : Piece α}
    (hfits : List.Forall₂ BerElmt.Fits elmts ps) (hp : firstPiece ps = some p) :
    ∃ e ∈ followers elmts, e.Recovers p := by
  induction hfits with
  | nil => cases hp
  | @cons e o elmts ps hfit hrest ih =>
      rw [followers]
      cases o with
      | some q =>
          obtain rfl : q = p := Option.some.inj hp
          split
          · exact ⟨e, List.mem_cons_self, hfit⟩
          · exact ⟨e, List.mem_singleton_self e, hfit⟩
      | none =>
          have hmay : e.mayBeAbsent = true := by
            rw [BerElmt.mayBeAbsent]
            rcases hfit with ⟨-, hadd⟩ | ⟨-, hptr⟩
            · rw [hadd, Bool.or_true]
            · rw [BerElmt.isPtr] at hptr
              rw [hptr, Bool.true_or]
          obtain ⟨e', he', hrec⟩ := ih hp
          rw [if_pos hmay]
          exact ⟨e', List.mem_cons_of_mem _ he', hrec⟩

theorem distinguished_of_tagsDiffer {elmts : List (BerElmt α)} {ps : List (Option (Piece α))}
    (hfits : List.Forall₂ BerElmt.Fits elmts ps) (h : TagsDiffer elmts) :
    Distinguished elmts ps := by
  induction hfits with
  | nil => exact trivial
  | @cons e o elmts ps hfit hrest ih =>
      cases o with
      | some q => exact ih h.2
      | none =>
          refine ⟨fun p hp => ?_, ih h.2⟩
          rcases hfit with ⟨hkind, -⟩ | ⟨-, hptr⟩
          · exact .inl hkind
          · obtain ⟨e', he', hrec⟩ := recovers_follower hrest hp
            exact .inr (h.1 hptr e' he' _ hrec.accepted)

/-- `AsnBool`, as octets. -/
def booleanClass : BerClass (List Octet) where
  bEncContent x := x
  bEnc x := x
  bDecContent _ elmtLen n := do
    let x ← AsnBuf.getSeg elmtLen
    return (x, n + elmtLen)
  bDec n := return ([], n)

/-- `AsnAny`. -/
def anyClass : BerClass (List Octet) where
  bEncContent x := x
  bEnc x := x
  bDecContent := AsnAny.bDecContent
  bDec := AsnAny.bDec

/-- A mandatory or OPTIONAL element of type BOOLEAN with a context-specific tag. -/
def booleanElmt (code : ℕ) (optional : Bool) : BerElmt (List Octet) where
  tags := [⟨.cntx, .prim, code⟩]
  stoleChoiceTags := false
  kind := .other
  optional := optional
  hasDefault := false
  extensionAddition := false
  lenient := none
  hasShortLen := true
  cls := booleanClass

/-- A mandatory element of type ANY without a tag. -/
def anyElmt : BerElmt (List Octet) where
  tags := []
  stoleChoiceTags := false
  kind := .any
  optional := false
  hasDefault := false
  extensionAddition := false
  lenient := none
  hasShortLen := false
  cls := anyClass

theorem booleanElmt_decodes (code : ℕ) (optional : Bool) {x : List Octet} (h : x.length < 128) :
    (booleanElmt code optional).Decodes x := by
  refine ⟨fun _ => h, fun tg _ past rest n => ?_⟩
  exact (AsnBuf.getSeg_reads past rest x).bind_pure fun y => (y, n + x.length)

theorem booleanElmt_wellTagged {code : ℕ} (optional : Bool) (h : code < 10000) :
    (booleanElmt code optional).WellTagged := by
  refine ⟨fun hs => Bool.noConfusion hs, fun _ => rfl, fun _ tg htg => ?_, fun tg htg => ?_⟩
  · obtain rfl := List.mem_singleton.mp htg
    exact ⟨h, fun hc => TagClass.noConfusion hc.1⟩
  · cases htg

theorem regular_booleanElmt : Regular [booleanElmt 0 false] where
  wellTagged := by
    intro e he
    obtain rfl := List.mem_singleton.mp he
    exact booleanElmt_wellTagged false (by decide)
  readable := by
    intro e he _
    obtain rfl := List.mem_singleton.mp he
    exact List.cons_ne_nil _ _
  readsFirstTag := by
    intro e he
    cases he
    exact ⟨rfl, rfl⟩
  additionsLast := List.pairwise_singleton _ _
  tagsDiffer := ⟨fun h => Bool.noConfusion h, trivial⟩

end Esnacc.Generated
