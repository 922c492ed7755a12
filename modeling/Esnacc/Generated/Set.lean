import Esnacc.Generated.SequenceRoundTrip
import Esnacc.Ber.Any

/-!
The decoder of a SET: a loop over whatever comes, with a counter of the mandatory elements.
-/

namespace Esnacc.Generated

open BitString Tlv

variable {α : Type}

namespace BerElmt

/-- The element as the code of a SET reads it: every open type decodes its own tag, and no second
tag is tried. -/
def inSet (e : BerElmt α) : BerElmt α :=
  { e with kind := if e.kind = .any then .anyDefinedBy else e.kind, lenient := none }

/-- The `case` labels of an element. -/
def hasCase (e : BerElmt α) (tag1 : AsnTag) : Bool :=
  e.kind ≠ .extension && !e.tags.isEmpty && e.inSet.test tag1

end BerElmt

/-- The branch of the `switch`, with the index of its element. -/
def findCase (tag1 : AsnTag) : List (BerElmt α) → ℕ → Option (ℕ × BerElmt α)
  | [], _ => none
  | e :: elmts, i => if e.hasCase tag1 then some (i, e) else findCase tag1 elmts (i + 1)

/-- The members so far, the unknown elements, and `mandatoryElmtsDecoded`. -/
structure SetState (α : Type) where
  members : List (Option α)
  extension : List (List Octet)
  mandatoryElmtsDecoded : ℕ

/-- What the branch of an element leaves behind. -/
def SetState.put (s : SetState α) (i : ℕ) (e : BerElmt α) (x : α) : SetState α where
  members := s.members.set i (some x)
  extension := s.extension
  mandatoryElmtsDecoded :=
    if e.mayBeAbsent then s.mandatoryElmtsDecoded else s.mandatoryElmtsDecoded + 1

/-- The loop of `BDecContent`; the fuel bounds the number of its passes. The length that is read
in front of the `switch` is read in the branches here. -/
def bDecSetLoop (elmts : List (BerElmt α)) (elmtLen0 : ℕ) :
    ℕ → SetState α → ℕ → BerM (SetState α × ℕ)
  | 0, _, _ => throw (.undefinedBehaviour "the loop does not end")
  | fuel + 1, s, n =>
      if n < elmtLen0 ∨ elmtLen0 = indefiniteLen then do
        let readLoc ← AsnBuf.getReadLoc
        let (tag1, n) ← bDecTag n
        if elmtLen0 = indefiniteLen ∧ tag1 = 0 then
          let n ← bDec2ndEocOctet n
          return (s, n)
        else
          match findCase tag1 elmts 0 with
          | some (i, e) => do
              let (x, _, n) ← e.inSet.bDecElmt tag1 n
              bDecSetLoop elmts elmtLen0 fuel (s.put i e x) n
          | none => do
              let (_, n) ← bDecLen n
              if elmts.any fun e => e.kind = .extension then
                AsnBuf.setReadLoc readLoc
                let (extAny, n) ← AsnAny.bDec n
                bDecSetLoop elmts elmtLen0 fuel { s with extension := s.extension ++ [extAny] } n
              else throw (invalidTagException "")
      else return (s, n)

/-- The number of elements that have to occur. -/
def mandatoryElmtCount (elmts : List (BerElmt α)) : ℕ :=
  (elmts.filter fun e => e.kind ≠ .extension && !e.mayBeAbsent).length

/-- `BDecContent` of a SET. -/
def bDecSet (elmts : List (BerElmt α)) (elmtLen0 bytesDecoded : ℕ) :
    BerM (SequenceObject α × ℕ) := fun b =>
  (if elmts.isEmpty then
    if elmtLen0 = indefiniteLen then do
      let bytesDecoded ← bDecEoc bytesDecoded
      return (⟨[], []⟩, bytesDecoded)
    else if elmtLen0 ≠ 0 then throw (except "Expected an empty sequence" .decodeError)
    else return (⟨[], []⟩, bytesDecoded)
  else do
    let (s, n) ← bDecSetLoop elmts elmtLen0 (b.rest.length + 1)
      ⟨elmts.map fun _ => none, [], 0⟩ 0
    if s.mandatoryElmtsDecoded < mandatoryElmtCount elmts then
      throw (except "non-optional SET element missing" .decodeError)
    else return (⟨s.members, s.extension⟩, bytesDecoded + n) :
      BerM (SequenceObject α × ℕ)).run b

/-! ### Contents that consist of members -/

/-- The encoding of a member, with the element whose branch it takes. -/
structure SetItem (α : Type) where
  index : ℕ
  elmt : BerElmt α
  piece : Piece α

structure SetItem.Belongs (elmts : List (BerElmt α)) (item : SetItem α) : Prop where
  found : findCase (tagOf item.piece.key) elmts 0 = some (item.index, item.elmt)
  recovers : item.elmt.inSet.Recovers item.piece

def setContents (items : List (SetItem α)) : List Octet :=
  items.flatMap fun item => item.piece.octets

def putAll (s : SetState α) (items : List (SetItem α)) : SetState α :=
  items.foldl (fun s item => s.put item.index item.elmt item.piece.value) s

theorem length_key_pos {e : BerElmt α} {p : Piece α} (h : e.Recovers p) : 0 < p.key.length := by
  cases hkey : p.key with
  | nil =>
      have hid := h.isIdentifier
      rw [hkey] at hid
      cases hid
  | cons o os => exact Nat.succ_pos _

theorem getReadLoc_bind {β : Type} {f : ℕ → BerM β} {past rest ys : List Octet} {c : β}
    (h : Cursor.Reads past rest (f past.length) ys c) :
    Cursor.Reads past rest (AsnBuf.getReadLoc >>= f) ys c := h

/-- The members are read one after the other, in either form. -/
theorem bDecSetLoop_reads {elmts : List (BerElmt α)} {elmtLen0 m : ℕ} {closing : List Octet}
    (hend : Ends elmtLen0 m closing) {items : List (SetItem α)}
    (hitems : ∀ item ∈ items, item.Belongs elmts) {n fuel : ℕ}
    (hm : m = n + (setContents items).length) (hfuel : items.length < fuel) (s : SetState α)
    (past rest : List Octet) :
    Cursor.Reads past rest (bDecSetLoop elmts elmtLen0 fuel s n) (setContents items ++ closing)
      (putAll s items, m + closing.length) := by
  induction items generalizing n fuel s past with
  | nil =>
      obtain ⟨fuel, rfl⟩ : ∃ k, fuel = k + 1 := ⟨fuel - 1, by simp at hfuel; omega⟩
      have hmn : m = n := hm
      subst hmn
      rw [bDecSetLoop]
      obtain ⟨hlt, ⟨rfl, rfl⟩ | ⟨rfl, rfl⟩⟩ := hend
      · rw [if_neg (by omega)]
        exact Cursor.Reads.pure _ _ _
      · rw [if_pos (.inr rfl)]
        exact Cursor.Reads.pure _ _ _
  | cons item items ih =>
      obtain ⟨fuel, rfl⟩ : ∃ k, fuel = k + 1 := ⟨fuel - 1, by omega⟩
      obtain ⟨hitem, hitems⟩ := List.forall_mem_cons.mp hitems
      have hrec := hitem.recovers
      have hpos := length_key_pos hrec
      have hcons : setContents (item :: items) =
          item.piece.key ++ (item.piece.body ++ setContents items) := List.append_assoc _ _ _
      rw [hcons, List.length_append, List.length_append] at hm
      have hgo : n < elmtLen0 ∨ elmtLen0 = indefiniteLen := by
        obtain ⟨-, ⟨rfl, -⟩ | ⟨rfl, -⟩⟩ := hend
        · left
          omega
        · exact .inr rfl
      have htag := bDecTag_reads past (item.piece.body ++ (setContents items ++ closing) ++ rest)
        hrec.isIdentifier hrec.length_key_le n
      have hne : ¬ (elmtLen0 = indefiniteLen ∧ tagOf item.piece.key = 0) :=
        fun h => AsnExtension.tagOf_ne_zero hrec.isIdentifier h.2
      obtain ⟨tag1, hread⟩ := hrec.reads past (setContents items ++ closing ++ rest)
        (n + item.piece.key.length)
      have hm' : m = n + item.piece.key.length + item.piece.body.length +
          (setContents items).length := by omega
      have hfuel' : items.length < fuel := Nat.lt_of_succ_lt_succ hfuel
      have hloop := ih hitems hm' hfuel' (s.put item.index item.elmt item.piece.value)
        (item.piece.body.reverse ++ (item.piece.key.reverse ++ past))
      rw [bDecSetLoop, if_pos hgo, hcons, List.append_assoc, List.append_assoc]
      refine getReadLoc_bind ?_
      refine Cursor.Reads.bind htag ?_
      dsimp only
      rw [if_neg hne, hitem.found]
      dsimp only
      exact Cursor.Reads.bind hread hloop

theorem length_items_le {elmts : List (BerElmt α)} {items : List (SetItem α)}
    (hitems : ∀ item ∈ items, item.Belongs elmts) : items.length ≤ (setContents items).length := by
  induction items with
  | nil => exact Nat.le_refl _
  | cons item items ih =>
      obtain ⟨hitem, hitems⟩ := List.forall_mem_cons.mp hitems
      have hpos := length_key_pos hitem.recovers
      have hle := ih hitems
      have hcons : (setContents (item :: items)).length =
          item.piece.key.length + item.piece.body.length + (setContents items).length := by
        rw [setContents, List.flatMap_cons, List.length_append, Piece.octets, List.length_append]
        rfl
      rw [List.length_cons, hcons]
      omega

/-- What the decoder of a SET makes of contents that consist of members. -/
theorem bDecSet_run {elmts : List (BerElmt α)} (hne : elmts ≠ []) {elmtLen0 : ℕ}
    {closing : List Octet} {items : List (SetItem α)}
    (hend : Ends elmtLen0 (setContents items).length closing)
    (hitems : ∀ item ∈ items, item.Belongs elmts) (bytesDecoded : ℕ) (past rest : List Octet) :
    (bDecSet elmts elmtLen0 bytesDecoded).run ⟨past, setContents items ++ closing ++ rest⟩ =
      if (putAll ⟨elmts.map fun _ => none, [], 0⟩ items).mandatoryElmtsDecoded <
          mandatoryElmtCount elmts then
        .error (except "non-optional SET element missing" .decodeError)
      else
        .ok ((⟨(putAll ⟨elmts.map fun _ => none, [], 0⟩ items).members,
            (putAll ⟨elmts.map fun _ => none, [], 0⟩ items).extension⟩,
          bytesDecoded + ((setContents items).length + closing.length)),
          ⟨(setContents items ++ closing).reverse ++ past, rest⟩) := by
  have hle := length_items_le hitems
  have hfuel : items.length < (setContents items ++ closing ++ rest).length + 1 := by
    simp only [List.length_append]
    omega
  have hloop := bDecSetLoop_reads hend hitems (Nat.zero_add _).symm hfuel
    ⟨elmts.map fun _ => none, [], 0⟩ past rest
  have hempty : elmts.isEmpty = false := by
    cases elmts with
    | nil => exact absurd rfl hne
    | cons e elmts => rfl
  show (StateT.run (if elmts.isEmpty then _ else _) _) = _
  rw [hempty, if_neg Bool.false_ne_true, hloop.run_bind]
  dsimp only
  split <;> rfl

end Esnacc.Generated
