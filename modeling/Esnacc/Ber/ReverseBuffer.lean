import Esnacc.Ber.Buffer

/-!
The buffer with the read pointers of its cards. Every question for a length sets the pointers of
the cards it looks at, and writing moves the start of a card but not its pointers.
-/

namespace Esnacc

open BitString

/-- `segment` is what lies between `m_pStart` and the end of `m_buf`, `room` what is free in front
of it. `get` holds `eback()` and `gptr()` as distances from the end of `m_buf`, which is `egptr()`;
the three are null before they are set. -/
structure AsnRvsBuf where
  segment : List Octet
  room : ℕ
  get : Option (ℕ × ℕ)
  deriving DecidableEq, Repr

namespace AsnRvsBuf

/-- `AsnRvsBuf(_SEG_SIZE)`. -/
def new : AsnRvsBuf := ⟨[], segSize, none⟩

variable (c : AsnRvsBuf)

/-! ### Writing -/

/-- `overflow(c)` where there is room. -/
def put (byte : Octet) : AsnRvsBuf := { c with segment := byte :: c.segment, room := c.room - 1 }

/-- `xsputn(s, n)`: as much of the end of `s` as there is room for. -/
def putn (s : List Octet) : AsnRvsBuf :=
  { c with
    segment := s.drop (s.length - min s.length c.room) ++ c.segment
    room := c.room - min s.length c.room }

/-! ### Reading -/

/-- What lies between `gptr()` and `egptr()`. -/
def available : List Octet :=
  match c.get with
  | none => []
  | some (_, gptr) => c.segment.drop (c.segment.length - gptr)

/-- `sbumpc()`, which calls `underflow()` when nothing is available; there is no octet at the end
of the card. -/
def sbumpc : Except Fault (Option Octet × AsnRvsBuf) :=
  match c.available with
  | ch :: rest => .ok (some ch, { c with get := c.get.map fun g => (g.1, rest.length) })
  | [] =>
      if c.get.map Prod.fst = some c.segment.length then .ok (none, c)
      else
        match c.segment with
        | ch :: rest => .ok (some ch, { c with get := some (c.segment.length, rest.length) })
        | [] => .error (.undefinedBehaviour "read past the end of a card")

/-- `sgetn(s, n)`: the octets up to the end of the card. -/
def sgetn : ℕ → AsnRvsBuf → Except Fault (List Octet × AsnRvsBuf)
  | 0, c => .ok ([], c)
  | n + 1, c => do
      let (ch, c) ← c.sbumpc
      match ch with
      | none => return ([], c)
      | some ch =>
          let (s, c) ← sgetn n c
          return (ch :: s, c)

/-- `pubseekoff(0, std::ios_base::cur, std::ios_base::in)`. -/
def position : ℕ :=
  match c.get with
  | none => 0
  | some (_, gptr) => c.segment.length - gptr

/-- `pubseekpos(pos, std::ios_base::in)`, which does nothing beyond the card. -/
def seekpos (pos : ℤ) : AsnRvsBuf :=
  if 0 ≤ pos ∧ pos ≤ c.segment.length then
    { c with get := some (c.segment.length, c.segment.length - pos.toNat) }
  else c

/-- `pubseekoff(0, std::ios_base::end, std::ios_base::in)`. -/
def seekEnd : AsnRvsBuf := { c with get := some (c.segment.length, 0) }

/-- `Card::length()`, and the card after the call. -/
def length : ℕ := c.segment.length - c.position

def measured : AsnRvsBuf := c.seekEnd.seekpos c.position

/-- The position in the loop of `AsnBuf::length()`, where it is an `int`. -/
def currPos : ℤ := if toInt32 c.position = -1 then 0 else toInt32 c.position

/-- What the loop adds, and the card after its turn. -/
def remaining : ℕ := toUlong (toInt32 (toInt32 c.segment.length - c.currPos))

def counted : AsnRvsBuf := c.seekEnd.seekpos c.currPos

end AsnRvsBuf

/-- `cards` are those from `m_card` on, `passed` those in front of it, the nearest one first. -/
structure DeckBuf where
  passed : List AsnRvsBuf
  cards : List AsnRvsBuf
  deriving DecidableEq, Repr

namespace DeckBuf

/-- `AsnBuf()`. -/
def new : DeckBuf := ⟨[], []⟩

variable (d : DeckBuf)

def deck : List AsnRvsBuf := d.passed.reverse ++ d.cards

/-- The octets of the whole deck, in reading order. -/
def octets : List Octet := (d.deck.map AsnRvsBuf.segment).flatten

/-- A use of `*m_card` where there is no such card. -/
def noCard : Fault := .undefinedBehaviour "m_card is past the last card"

/-! ### Reading -/

/-- `ResetMode()`. -/
def resetMode : DeckBuf := ⟨[], d.deck.map fun c => c.seekpos 0⟩

/-- `length()`, and the buffer after the call. -/
def length : ℕ := (d.cards.map AsnRvsBuf.remaining).sum % 2 ^ 64

def counted : DeckBuf := { d with cards := d.cards.map AsnRvsBuf.counted }

/-- The loop of `GetByte` over the cards. -/
def getByteFrom (passed : List AsnRvsBuf) : List AsnRvsBuf → Except Fault (Octet × DeckBuf)
  | [] => .error (bufferException "Read past end of data")
  | c :: cards => do
      let (ch, c) ← c.sbumpc
      match ch with
      | some ch => return (ch, ⟨passed, c :: cards⟩)
      | none => getByteFrom (c :: passed) cards

def getByte : Except Fault (Octet × DeckBuf) := getByteFrom d.passed d.cards

/-- The loop of `GetSeg` over the cards. -/
def getSegFrom (passed : List AsnRvsBuf) :
    List AsnRvsBuf → ℕ → Except Fault (List Octet × DeckBuf)
  | cards, 0 => .ok ([], ⟨passed, cards⟩)
  | [], _ + 1 => .error (bufferException "Read past end of data")
  | c :: cards, segLen + 1 => do
      let (seg, c) ← c.sgetn (segLen + 1)
      if seg.length = segLen + 1 then return (seg, ⟨passed, c :: cards⟩)
      else
        let (rest, d) ← getSegFrom (c :: passed) cards (segLen + 1 - seg.length)
        return (seg ++ rest, d)

def getSeg (segLen : ℕ) : Except Fault (List Octet × DeckBuf) :=
  getSegFrom d.passed d.cards segLen

/-! ### Writing -/

/-- Lays a card on top of the deck. -/
def lay (c : AsnRvsBuf) : DeckBuf := ⟨[], c :: d.deck⟩

def putByteRvs (byte : Octet) : Except Fault DeckBuf :=
  match d.deck, d.cards with
  | [], _ => .ok (d.lay (AsnRvsBuf.new.put byte))
  | _ :: _, c :: cards =>
      if c.room = 0 then .ok (d.lay (AsnRvsBuf.new.put byte))
      else .ok { d with cards := c.put byte :: cards }
  | _ :: _, [] => .error noCard

/-- The loop of `PutSegRvs`: a card that is full is followed by the one in front of it, or by a
new one. The fuel bounds the number of passes. -/
def putSegLoop : ℕ → DeckBuf → List Octet → Except Fault DeckBuf
  | 0, _, _ => .error (.undefinedBehaviour "the loop does not end")
  | fuel + 1, d, seg =>
      if seg = [] then .ok d
      else
        match d.cards with
        | [] => .error noCard
        | c :: cards =>
            let rest := seg.take (seg.length - min seg.length c.room)
            if rest = [] then .ok { d with cards := c.putn seg :: cards }
            else
              match d.passed with
              | [] => putSegLoop fuel ⟨[], AsnRvsBuf.new :: c.putn seg :: cards⟩ rest
              | p :: passed => putSegLoop fuel ⟨passed, p :: c.putn seg :: cards⟩ rest

def putSegRvs (seg : List Octet) : Except Fault DeckBuf :=
  putSegLoop (seg.length + d.passed.length + 2)
    (if d.deck = [] then d.lay AsnRvsBuf.new else d) seg

/-- An empty current card is erased. -/
def dropEmptyCard : DeckBuf :=
  match d.cards with
  | [] => d
  | c :: cards => { d with cards := if c.length = 0 then cards else c.measured :: cards }

/-- `AsnRvsBuf(otherBuf)`: a card with a copy of the other buffer. -/
def copied (that : DeckBuf) : Except Fault AsnRvsBuf :=
  if that.resetMode.length = 0 then .ok AsnRvsBuf.new
  else if 2 ^ 63 ≤ that.resetMode.length then .error (memoryException "std::bad_array_new_length")
  else do
    let (seg, _) ← that.resetMode.counted.getSeg that.resetMode.length
    return ⟨seg, 0, none⟩

/-- `insert(that)`. The other buffer is left at the start of reading. -/
def insert (that : DeckBuf) : Except Fault DeckBuf := do
  let c ← that.copied
  return d.dropEmptyCard.lay c

/-- `splice(b)` takes the cards of the other buffer, and returns the length it had. -/
def splice (b : DeckBuf) : ℕ × DeckBuf :=
  (b.length,
    if b.deck = [] then d.dropEmptyCard else ⟨[], b.counted.deck ++ d.dropEmptyCard.deck⟩)

end DeckBuf

/-- The calls that write. -/
inductive RvsCall
  | putByteRvs (byte : Octet)
  | putSegRvs (seg : List Octet)
  | insert (that : DeckBuf)
  | splice (b : DeckBuf)

namespace RvsCall

/-- What a call writes. -/
def piece : RvsCall → List Octet
  | putByteRvs byte => [byte]
  | putSegRvs seg => seg
  | insert that => that.octets
  | splice b => b.octets

def exec (d : DeckBuf) : RvsCall → Except Fault DeckBuf
  | putByteRvs byte => d.putByteRvs byte
  | putSegRvs seg => d.putSegRvs seg
  | insert that => d.insert that
  | splice b => .ok (d.splice b).2

/-- A sequence of calls. -/
def run (d : DeckBuf) : List RvsCall → Except Fault DeckBuf
  | [] => .ok d
  | call :: calls => do
      let d ← call.exec d
      run d calls

end RvsCall

namespace AsnRvsBuf

variable {c : AsnRvsBuf}

/-! ### Reading a card -/

/-- The read pointers are set, and `xs` lies behind them. -/
def Ahead (c : AsnRvsBuf) (xs : List Octet) : Prop :=
  ∃ past, c.segment = past ++ xs ∧ c.get = some (c.segment.length, xs.length)

theorem Ahead.available_eq {xs : List Octet} (h : c.Ahead xs) : c.available = xs := by
  obtain ⟨past, hsegment, hget⟩ := h
  rw [available, hget, hsegment]
  simp

theorem Ahead.sbumpc_nil (h : c.Ahead []) : c.sbumpc = .ok (none, c) := by
  have havailable := h.available_eq
  obtain ⟨past, -, hget⟩ := h
  unfold sbumpc
  rw [havailable]
  exact if_pos (by rw [hget, Option.map_some])

theorem Ahead.sbumpc_cons {ch : Octet} {xs : List Octet} (h : c.Ahead (ch :: xs)) :
    ∃ c', c.sbumpc = .ok (some ch, c') ∧ c'.Ahead xs ∧ c'.segment = c.segment := by
  have havailable := h.available_eq
  obtain ⟨past, hsegment, hget⟩ := h
  refine ⟨{ c with get := c.get.map fun g => (g.1, xs.length) }, ?_,
    ⟨past ++ [ch], by simp [hsegment], by simp [hget]⟩, rfl⟩
  unfold sbumpc
  rw [havailable]

theorem Ahead.sgetn_eq {xs : List Octet} (h : c.Ahead xs) (n : ℕ) :
    ∃ c', sgetn n c = .ok (xs.take n, c') ∧ c'.Ahead (xs.drop n) ∧ c'.segment = c.segment := by
  induction n generalizing c xs with
  | zero => exact ⟨c, rfl, h, rfl⟩
  | succ n ih =>
      cases xs with
      | nil => exact ⟨c, by rw [sgetn, h.sbumpc_nil]; rfl, h, rfl⟩
      | cons ch xs =>
          obtain ⟨c₁, hbump, h₁, hsame₁⟩ := h.sbumpc_cons
          obtain ⟨c₂, hrest, h₂, hsame₂⟩ := ih h₁
          refine ⟨c₂, ?_, h₂, hsame₂.trans hsame₁⟩
          rw [sgetn, hbump]
          show (sgetn n c₁ >>= _) = _
          rw [hrest]
          rfl

theorem seekpos_zero (c : AsnRvsBuf) :
    c.seekpos 0 = { c with get := some (c.segment.length, c.segment.length) } :=
  if_pos ⟨le_rfl, Int.natCast_nonneg _⟩

theorem ahead_seekpos_zero (c : AsnRvsBuf) : (c.seekpos 0).Ahead c.segment := by
  rw [seekpos_zero]
  exact ⟨[], rfl, rfl⟩

@[simp] theorem segment_seekpos_zero (c : AsnRvsBuf) : (c.seekpos 0).segment = c.segment := by
  rw [seekpos_zero]

/-! ### Cards that have not been read -/

/-- Nothing of the card has been read, and all its positions are values of an `int`. -/
structure Fresh (c : AsnRvsBuf) : Prop where
  position_eq : c.position = 0
  size_lt : c.segment.length + c.room < 2 ^ 31

theorem fresh_new : new.Fresh := ⟨rfl, by decide⟩

theorem fresh_seekpos_zero (h : c.segment.length + c.room < 2 ^ 31) : (c.seekpos 0).Fresh := by
  rw [seekpos_zero]
  exact ⟨Nat.sub_self _, h⟩

theorem Fresh.length_eq (h : c.Fresh) : c.length = c.segment.length := by
  rw [length, h.position_eq, Nat.sub_zero]

theorem Fresh.measured_eq (h : c.Fresh) : c.measured = c.seekpos 0 := by
  rw [measured, h.position_eq, Nat.cast_zero, seekpos_zero, seekpos_zero]
  rfl

theorem Fresh.currPos_eq (h : c.Fresh) : c.currPos = 0 := by
  rw [currPos, h.position_eq]
  rfl

theorem Fresh.counted_eq (h : c.Fresh) : c.counted = c.seekpos 0 := by
  rw [counted, h.currPos_eq, seekpos_zero, seekpos_zero]
  rfl

theorem Fresh.remaining_eq (h : c.Fresh) : c.remaining = c.segment.length := by
  have hsize := h.size_lt
  have hint : toInt32 c.segment.length = c.segment.length := toInt32_eq (by omega) (by omega)
  rw [remaining, h.currPos_eq, hint, sub_zero, hint, toUlong_natCast (by omega)]

/-- The card takes no more octets, or its read pointers are not set. -/
def Writable (c : AsnRvsBuf) : Prop := c.room = 0 ∨ c.get = none

theorem Fresh.put (h : c.Fresh) (hget : c.get = none) (hroom : c.room ≠ 0) (byte : Octet) :
    (c.put byte).Fresh := by
  have hsize := h.size_lt
  refine ⟨?_, ?_⟩
  · show AsnRvsBuf.position { c with segment := byte :: c.segment, room := c.room - 1 } = 0
    rw [position, hget]
  · show (byte :: c.segment).length + (c.room - 1) < 2 ^ 31
    rw [List.length_cons]
    omega

theorem Fresh.putn (h : c.Fresh) (hwritable : c.Writable) (s : List Octet) :
    (c.putn s).Fresh := by
  have hsize := h.size_lt
  refine ⟨?_, ?_⟩
  · rcases hwritable with hfull | hget
    · have hsame : c.putn s = c := by
        obtain ⟨segment, room, get⟩ := c
        obtain rfl : room = 0 := hfull
        simp [AsnRvsBuf.putn]
      rw [hsame]
      exact h.position_eq
    · show AsnRvsBuf.position { c with segment := _, room := _ } = 0
      rw [position, hget]
  · show (s.drop (s.length - min s.length c.room) ++ c.segment).length +
      (c.room - min s.length c.room) < 2 ^ 31
    rw [List.length_append, List.length_drop]
    omega

end AsnRvsBuf

namespace DeckBuf

open AsnRvsBuf

/-! ### Reading the deck -/

/-- The octets of a deck do not depend on where it is read. -/
def segments (cards : List AsnRvsBuf) : List Octet := (cards.map segment).flatten

@[simp] theorem segments_cons (c : AsnRvsBuf) (cards : List AsnRvsBuf) :
    segments (c :: cards) = c.segment ++ segments cards := rfl

@[simp] theorem segments_append (cards cards' : List AsnRvsBuf) :
    segments (cards ++ cards') = segments cards ++ segments cards' := by
  simp [segments]

theorem segments_map_eq {f : AsnRvsBuf → AsnRvsBuf} {cards : List AsnRvsBuf}
    (h : ∀ c ∈ cards, (f c).segment = c.segment) : segments (cards.map f) = segments cards := by
  rw [segments, List.map_map, segments]
  exact congrArg _ (List.map_congr_left h)

theorem octets_eq (d : DeckBuf) : d.octets = segments d.passed.reverse ++ segments d.cards := by
  rw [← segments_append]
  rfl

/-- What lies behind the read pointers, card by card. -/
abbrev Ahead (cards : List AsnRvsBuf) (xss : List (List Octet)) : Prop :=
  List.Forall₂ AsnRvsBuf.Ahead cards xss

theorem getSegFrom_eq {cards : List AsnRvsBuf} {xss : List (List Octet)} (h : Ahead cards xss)
    (passed : List AsnRvsBuf) {n : ℕ} (hn : n ≤ xss.flatten.length) :
    ∃ d', getSegFrom passed cards n = .ok (xss.flatten.take n, d') ∧
      d'.octets = segments passed.reverse ++ segments cards ∧
      ∃ xss', Ahead d'.cards xss' ∧ xss'.flatten = xss.flatten.drop n := by
  induction h generalizing passed n with
  | nil =>
      obtain rfl : n = 0 := Nat.le_zero.mp hn
      exact ⟨⟨passed, []⟩, rfl, octets_eq _, [], List.Forall₂.nil, rfl⟩
  | @cons c xs cards xss hc hcards ih =>
      cases n with
      | zero => exact ⟨⟨passed, c :: cards⟩, rfl, octets_eq _, xs :: xss, hcards.cons hc, rfl⟩
      | succ n =>
          obtain ⟨c', hget, hc', hsame⟩ := hc.sgetn_eq (n + 1)
          rw [List.flatten_cons, List.length_append] at hn
          unfold getSegFrom
          rw [hget]
          show ∃ d', (if (xs.take (n + 1)).length = n + 1 then _ else _) = _ ∧ _
          by_cases hall : n + 1 ≤ xs.length
          · rw [if_pos (List.length_take_of_le hall)]
            refine ⟨⟨passed, c' :: cards⟩, ?_, ?_, _, hcards.cons hc', ?_⟩
            · rw [List.flatten_cons, List.take_append_of_le_length hall]
              rfl
            · rw [octets_eq, segments_cons, segments_cons, hsame]
            · rw [List.flatten_cons, List.flatten_cons, List.drop_append_of_le_length hall]
          · have hshort : xs.take (n + 1) = xs := List.take_of_length_le (by omega)
            obtain ⟨d', hrest, hoctets, xss', hahead, hflat⟩ := ih (c' :: passed)
              (n := n + 1 - xs.length) (by omega)
            rw [hshort, if_neg (by omega), hrest]
            refine ⟨d', ?_, ?_, xss', hahead, ?_⟩
            · rw [List.flatten_cons, List.take_append, hshort]
              rfl
            · rw [hoctets, List.reverse_cons, segments_append, segments_cons, segments_cons, hsame]
              simp [segments]
            · rw [hflat, List.flatten_cons, List.drop_append,
                List.drop_of_length_le (show xs.length ≤ n + 1 by omega), List.nil_append]

theorem getByteFrom_eq {cards : List AsnRvsBuf} {xss : List (List Octet)} (h : Ahead cards xss)
    (passed : List AsnRvsBuf) {ch : Octet} {rest : List Octet}
    (hflat : xss.flatten = ch :: rest) :
    ∃ d', getByteFrom passed cards = .ok (ch, d') ∧
      d'.octets = segments passed.reverse ++ segments cards ∧
      ∃ xss', Ahead d'.cards xss' ∧ xss'.flatten = rest := by
  induction h generalizing passed with
  | nil => cases hflat
  | @cons c xs cards xss hc hcards ih =>
      unfold getByteFrom
      cases xs with
      | nil =>
          obtain ⟨d', hrest, hoctets, hahead⟩ := ih (c :: passed) hflat
          rw [hc.sbumpc_nil]
          refine ⟨d', hrest, ?_, hahead⟩
          rw [hoctets, List.reverse_cons, segments_append, segments_cons, segments_cons]
          simp [segments]
      | cons x xs =>
          obtain ⟨rfl, hrest⟩ := List.cons.inj hflat
          obtain ⟨c', hbump, hc', hsame⟩ := hc.sbumpc_cons
          rw [hbump]
          refine ⟨⟨passed, c' :: cards⟩, rfl, ?_, xs :: xss, hcards.cons hc', hrest⟩
          rw [octets_eq, segments_cons, segments_cons, hsame]

/-- `GetByte` so many times. -/
def getBytes : ℕ → DeckBuf → Except Fault (List Octet × DeckBuf)
  | 0, d => .ok ([], d)
  | n + 1, d => do
      let (ch, d) ← d.getByte
      let (chs, d) ← getBytes n d
      return (ch :: chs, d)

theorem getBytes_eq {d : DeckBuf} {xss : List (List Octet)} (h : Ahead d.cards xss) {n : ℕ}
    (hn : n ≤ xss.flatten.length) :
    ∃ d', getBytes n d = .ok (xss.flatten.take n, d') ∧ d'.octets = d.octets := by
  induction n generalizing d xss with
  | zero => exact ⟨d, rfl, rfl⟩
  | succ n ih =>
      cases hflat : xss.flatten with
      | nil =>
          rw [hflat] at hn
          cases hn
      | cons ch rest =>
          rw [hflat, List.length_cons] at hn
          obtain ⟨d₁, hone, hoctets, xss', hahead, hrest⟩ := getByteFrom_eq h d.passed hflat
          obtain ⟨d₂, hmore, hoctets'⟩ := ih hahead (by rw [hrest]; omega)
          refine ⟨d₂, ?_, by rw [hoctets', hoctets, octets_eq]⟩
          unfold getBytes getByte
          rw [hone]
          show (getBytes n d₁ >>= _) = _
          rw [hmore, hrest]
          rfl

theorem ahead_resetMode (d : DeckBuf) :
    Ahead d.resetMode.cards (d.deck.map segment) :=
  List.forall₂_map_left_iff.mpr (List.forall₂_map_right_iff.mpr
    (List.forall₂_same.mpr fun c _ => c.ahead_seekpos_zero))

@[simp] theorem octets_resetMode (d : DeckBuf) : d.resetMode.octets = d.octets := by
  show segments (d.deck.map fun c => c.seekpos 0) = segments d.deck
  exact segments_map_eq fun c _ => c.segment_seekpos_zero

/-- From the start of reading, the octets come in their order, whatever has been done before. -/
theorem getSeg_resetMode (d : DeckBuf) {n : ℕ} (hn : n ≤ d.octets.length) :
    ∃ d', d.resetMode.getSeg n = .ok (d.octets.take n, d') ∧ d'.octets = d.octets := by
  obtain ⟨d', hget, hoctets, -⟩ := getSegFrom_eq d.ahead_resetMode d.resetMode.passed hn
  exact ⟨d', hget, hoctets.trans d.octets_resetMode⟩

theorem getBytes_resetMode (d : DeckBuf) {n : ℕ} (hn : n ≤ d.octets.length) :
    ∃ d', getBytes n d.resetMode = .ok (d.octets.take n, d') ∧ d'.octets = d.octets := by
  obtain ⟨d', hget, hoctets⟩ := getBytes_eq d.ahead_resetMode hn
  exact ⟨d', hget, hoctets.trans d.octets_resetMode⟩

/-- The cards are read as the one sequence of octets of a cursor. -/
theorem getSeg_refines (d : DeckBuf) {n : ℕ} (hn : n ≤ d.octets.length) :
    (d.resetMode.getSeg n).map Prod.fst =
      ((AsnBuf.getSeg n).run ⟨[], d.octets⟩).map Prod.fst := by
  obtain ⟨d', hget, -⟩ := d.getSeg_resetMode hn
  have hcursor : (AsnBuf.getSeg n).run ⟨[], d.octets⟩ =
      .ok (d.octets.take n, (⟨[], d.octets⟩ : AsnBuf).advance n) := if_pos hn
  rw [hget, hcursor]
  rfl

/-! ### Writing -/

/-- A card as `Deck` keeps it, without `eback()`. -/
def toCard (c : AsnRvsBuf) : Card := ⟨c.segment, c.room, c.get.map Prod.snd⟩

/-- With `m_card` at the first card, writing is that of the deck alone. -/
theorem putByteRvs_refines (cards : List AsnRvsBuf) (byte : Octet) :
    ((⟨[], cards⟩ : DeckBuf).putByteRvs byte).map (fun d => d.cards.map toCard) =
      .ok (Deck.putByteRvs (cards.map toCard) byte) := by
  cases cards with
  | nil => rfl
  | cons c cards =>
      by_cases hfull : c.room = 0
      · have hfull' : (toCard c).room = 0 := hfull
        simp only [DeckBuf.putByteRvs, deck, List.reverse_nil, List.nil_append, if_pos hfull,
          List.map_cons, Deck.putByteRvs, if_pos hfull']
        rfl
      · have hroom : ¬ (toCard c).room = 0 := hfull
        simp only [DeckBuf.putByteRvs, deck, List.reverse_nil, List.nil_append, if_neg hfull,
          List.map_cons, Deck.putByteRvs, if_neg hroom]
        rfl

/-- `m_card` is the first card, and no card has been read. -/
structure Sound (d : DeckBuf) : Prop where
  passed_eq : d.passed = []
  fresh : ∀ c ∈ d.cards, c.Fresh

theorem sound_new : Sound new := ⟨rfl, nofun⟩

variable {d : DeckBuf}

theorem Sound.deck_eq (h : d.Sound) : d.deck = d.cards := by
  rw [deck, h.passed_eq]
  rfl

theorem Sound.octets_eq (h : d.Sound) : d.octets = segments d.cards := by
  rw [octets, h.deck_eq]
  rfl

theorem Sound.lay (h : d.Sound) {c : AsnRvsBuf} (hc : c.Fresh) : (d.lay c).Sound := by
  refine ⟨rfl, fun c' hc' => ?_⟩
  rw [DeckBuf.lay, h.deck_eq] at hc'
  rcases List.mem_cons.mp hc' with rfl | hmem
  · exact hc
  · exact h.fresh c' hmem

theorem octets_lay (d : DeckBuf) (c : AsnRvsBuf) : (d.lay c).octets = c.segment ++ d.octets := rfl

/-- Writing goes to the current card only where its read pointers are not set. -/
def Writable (d : DeckBuf) : Prop := ∀ c ∈ d.cards.head?, c.Writable

theorem Sound.putByteRvs (h : d.Sound) (hwritable : d.Writable) (byte : Octet) :
    ∃ d', d.putByteRvs byte = .ok d' ∧ d'.Sound ∧ d'.octets = byte :: d.octets := by
  have hnew : (AsnRvsBuf.new.put byte).Fresh := fresh_new.put rfl (by decide) byte
  obtain ⟨passed, cards⟩ := d
  obtain rfl : passed = [] := h.passed_eq
  cases cards with
  | nil => exact ⟨_, rfl, h.lay hnew, rfl⟩
  | cons c cards =>
      unfold DeckBuf.putByteRvs
      by_cases hfull : c.room = 0
      · exact ⟨_, if_pos hfull, h.lay hnew, rfl⟩
      · have hget := (hwritable c rfl).resolve_left hfull
        refine ⟨_, if_neg hfull, ⟨rfl, ?_⟩, rfl⟩
        intro c' hc'
        rcases List.mem_cons.mp hc' with rfl | hmem
        · exact (h.fresh c List.mem_cons_self).put hget hfull byte
        · exact h.fresh c' (List.mem_cons_of_mem c hmem)

/-- What a card takes and what is left of a segment make up the segment. -/
theorem take_append_segment_putn (c : AsnRvsBuf) (seg : List Octet) :
    seg.take (seg.length - min seg.length c.room) ++ (c.putn seg).segment = seg ++ c.segment := by
  show seg.take _ ++ (seg.drop _ ++ c.segment) = _
  rw [← List.append_assoc, List.take_append_drop]

theorem putSegLoop_eq {fuel : ℕ} {c : AsnRvsBuf} {cards : List AsnRvsBuf} {seg : List Octet}
    (hwritable : c.Writable) (hfresh : ∀ x ∈ c :: cards, x.Fresh)
    (hfuel : seg.length + 1 + (if c.room = 0 then 1 else 0) ≤ fuel) :
    ∃ cards', putSegLoop fuel ⟨[], c :: cards⟩ seg = .ok ⟨[], cards'⟩ ∧
      (∀ x ∈ cards', x.Fresh) ∧ segments cards' = seg ++ segments (c :: cards) := by
  induction fuel generalizing c cards seg with
  | zero => omega
  | succ fuel ih =>
      unfold putSegLoop
      by_cases hnil : seg = []
      · rw [if_pos hnil, hnil]
        exact ⟨c :: cards, rfl, hfresh, rfl⟩
      rw [if_neg hnil]
      have hput := (hfresh c List.mem_cons_self).putn hwritable seg
      have hfresh' : ∀ x ∈ c.putn seg :: cards, x.Fresh := by
        intro x hx
        rcases List.mem_cons.mp hx with rfl | hmem
        · exact hput
        · exact hfresh x (List.mem_cons_of_mem c hmem)
      have hsplit := take_append_segment_putn c seg
      have hpos := List.length_pos_iff.mpr hnil
      simp only
      by_cases hrest : seg.take (seg.length - min seg.length c.room) = []
      · rw [if_pos hrest]
        refine ⟨_, rfl, hfresh', ?_⟩
        rw [hrest, List.nil_append] at hsplit
        rw [segments_cons, segments_cons, hsplit, List.append_assoc]
      · rw [if_neg hrest]
        obtain ⟨cards', hloop, hcards', hsegments⟩ := @ih AsnRvsBuf.new (c.putn seg :: cards)
          (seg.take (seg.length - min seg.length c.room)) (Or.inr rfl)
          (fun x hx => (List.mem_cons.mp hx).elim (fun hx => hx ▸ fresh_new) (hfresh' x))
          (by
            rw [if_neg (by decide), List.length_take]
            split at hfuel <;> omega)
        refine ⟨cards', hloop, hcards', ?_⟩
        rw [hsegments, segments_cons, segments_cons, segments_cons, ← List.append_assoc seg,
          ← hsplit]
        simp [AsnRvsBuf.new]

theorem Sound.putSegRvs (h : d.Sound) {seg : List Octet} (hwritable : seg = [] ∨ d.Writable) :
    ∃ d', d.putSegRvs seg = .ok d' ∧ d'.Sound ∧ d'.octets = seg ++ d.octets := by
  obtain ⟨passed, cards⟩ := d
  obtain rfl : passed = [] := h.passed_eq
  unfold DeckBuf.putSegRvs
  cases cards with
  | nil =>
      obtain ⟨cards', hloop, hfresh, hsegments⟩ := @putSegLoop_eq (seg.length + 0 + 2)
        AsnRvsBuf.new [] seg (Or.inr rfl)
        (fun x hx => (List.mem_singleton.mp hx) ▸ fresh_new) (by split <;> omega)
      exact ⟨_, hloop, ⟨rfl, hfresh⟩, hsegments⟩
  | cons c cards =>
      rw [if_neg (show ¬ DeckBuf.deck ⟨[], c :: cards⟩ = [] from List.cons_ne_nil c cards)]
      rcases hwritable with rfl | hwritable
      · exact ⟨_, rfl, h, rfl⟩
      · obtain ⟨cards', hloop, hfresh, hsegments⟩ := @putSegLoop_eq (seg.length + 0 + 2) c cards seg
          (hwritable c rfl) h.fresh (by split <;> omega)
        exact ⟨_, hloop, ⟨rfl, hfresh⟩, hsegments⟩

theorem Sound.dropEmptyCard (h : d.Sound) :
    d.dropEmptyCard.Sound ∧ d.dropEmptyCard.octets = d.octets := by
  obtain ⟨passed, cards⟩ := d
  obtain rfl : passed = [] := h.passed_eq
  cases cards with
  | nil => exact ⟨h, rfl⟩
  | cons c cards =>
      have hc := h.fresh c List.mem_cons_self
      have htail : ∀ x ∈ cards, x.Fresh := fun x hx => h.fresh x (List.mem_cons_of_mem c hx)
      unfold DeckBuf.dropEmptyCard
      by_cases hempty : c.length = 0
      · have hnil : c.segment = [] := by
          rw [hc.length_eq] at hempty
          exact List.length_eq_zero_iff.mp hempty
        simp only [if_pos hempty]
        refine ⟨⟨rfl, htail⟩, ?_⟩
        show segments cards = segments (c :: cards)
        rw [segments_cons, hnil, List.nil_append]
      · simp only [if_neg hempty, hc.measured_eq]
        refine ⟨⟨rfl, fun x hx => ?_⟩, ?_⟩
        · rcases List.mem_cons.mp hx with rfl | hmem
          · exact fresh_seekpos_zero hc.size_lt
          · exact htail x hmem
        · show segments (c.seekpos 0 :: cards) = segments (c :: cards)
          rw [segments_cons, segments_cons, segment_seekpos_zero]

/-! ### Lengths -/

theorem sum_remaining {cards : List AsnRvsBuf} (h : ∀ c ∈ cards, c.Fresh) :
    (cards.map AsnRvsBuf.remaining).sum = (segments cards).length := by
  rw [segments, List.length_flatten, List.map_map]
  exact congrArg _ (List.map_congr_left fun c hc => (h c hc).remaining_eq)

theorem length_eq (h : ∀ c ∈ d.cards, c.Fresh) (hlt : (segments d.cards).length < 2 ^ 64) :
    d.length = (segments d.cards).length := by
  rw [length, sum_remaining h, Nat.mod_eq_of_lt hlt]

/-- Every card has a buffer whose positions are values of an `int`. -/
def Small (d : DeckBuf) : Prop := ∀ c ∈ d.deck, c.segment.length + c.room < 2 ^ 31

theorem Small.resetMode (h : d.Small) : ∀ c ∈ d.resetMode.cards, c.Fresh := by
  intro c hc
  obtain ⟨c, hmem, rfl⟩ := List.mem_map.mp hc
  exact fresh_seekpos_zero (h c hmem)

theorem Sound.small (h : d.Sound) : d.Small := by
  intro c hc
  rw [h.deck_eq] at hc
  exact (h.fresh c hc).size_lt

theorem Small.length_resetMode (h : d.Small) (hlt : d.octets.length < 2 ^ 64) :
    d.resetMode.length = d.octets.length := by
  have hoctets : segments d.resetMode.cards = d.octets := d.octets_resetMode
  rw [length_eq h.resetMode (hoctets ▸ hlt), hoctets]

theorem Small.copied (h : d.Small) (hlt : d.octets.length < 2 ^ 31) :
    ∃ c, d.copied = .ok c ∧ c.Fresh ∧ c.segment = d.octets := by
  have hlength := h.length_resetMode (hlt.trans (by decide))
  unfold DeckBuf.copied
  rw [hlength]
  by_cases hnil : d.octets.length = 0
  · rw [if_pos hnil]
    exact ⟨_, rfl, fresh_new, (List.length_eq_zero_iff.mp hnil).symm⟩
  · have hcounted : d.resetMode.counted = d.resetMode := by
      show DeckBuf.mk _ _ = DeckBuf.mk _ _
      rw [DeckBuf.mk.injEq]
      refine ⟨rfl, (List.map_congr_left fun c hc => ?_).trans (List.map_id _)⟩
      obtain ⟨c, hmem, rfl⟩ := List.mem_map.mp hc
      rw [(fresh_seekpos_zero (h c hmem)).counted_eq, c.seekpos_zero]
      exact AsnRvsBuf.seekpos_zero _
    obtain ⟨d', hget, -⟩ := d.getSeg_resetMode le_rfl
    rw [if_neg hnil, if_neg (by omega), hcounted, hget, List.take_length]
    exact ⟨_, rfl, ⟨rfl, hlt⟩, rfl⟩

end DeckBuf

namespace RvsCall

open DeckBuf

/-- A call that writes octets finds a current card whose read pointers are not set, or which is
full; a buffer that is inserted has octets, and one that is spliced cards, for which an `int` is
wide enough, and the latter has not been read. -/
def Safe (d : DeckBuf) : RvsCall → Prop
  | putByteRvs _ => d.Writable
  | putSegRvs seg => seg = [] ∨ d.Writable
  | insert that => that.Small ∧ that.octets.length < 2 ^ 31
  | splice b => ∀ c ∈ b.deck, c.Fresh

def SafeRun (d : DeckBuf) : List RvsCall → Prop
  | [] => True
  | call :: calls => call.Safe d ∧
      match call.exec d with
      | .ok d => SafeRun d calls
      | .error _ => True

/-- What a sequence of calls writes: the pieces in reverse order. -/
def written (calls : List RvsCall) : List Octet := (calls.reverse.map piece).flatten

theorem written_cons (call : RvsCall) (calls : List RvsCall) :
    written (call :: calls) = written calls ++ call.piece := by
  simp [written]

theorem splice_sound {d b : DeckBuf} (hd : d.Sound) (h : ∀ c ∈ b.deck, c.Fresh) :
    (d.splice b).2.Sound ∧ (d.splice b).2.octets = b.octets ++ d.octets := by
  obtain ⟨hdrop, hoctets⟩ := hd.dropEmptyCard
  unfold DeckBuf.splice
  simp only
  by_cases hnil : b.deck = []
  · rw [if_pos hnil]
    refine ⟨hdrop, ?_⟩
    rw [hoctets, show b.octets = [] by rw [DeckBuf.octets, hnil]; rfl, List.nil_append]
  rw [if_neg hnil]
  have hcards : ∀ c ∈ b.cards, c.Fresh := fun c hc => h c (List.mem_append_right _ hc)
  refine ⟨⟨rfl, fun c hc => ?_⟩, ?_⟩
  · rcases List.mem_append.mp hc with hb | hmem
    · rcases List.mem_append.mp hb with hpassed | hcounted
      · exact h c (List.mem_append_left _ hpassed)
      · obtain ⟨c, hmem, rfl⟩ := List.mem_map.mp hcounted
        rw [(hcards c hmem).counted_eq]
        exact AsnRvsBuf.fresh_seekpos_zero (hcards c hmem).size_lt
    · rw [hdrop.deck_eq] at hmem
      exact hdrop.fresh c hmem
  · have hsame : segments (b.cards.map AsnRvsBuf.counted) = segments b.cards :=
      segments_map_eq fun c hc => by
        rw [(hcards c hc).counted_eq, AsnRvsBuf.segment_seekpos_zero]
    show segments (b.counted.deck ++ d.dropEmptyCard.deck) = _
    rw [segments_append, ← hoctets, DeckBuf.octets_eq b]
    show segments (b.passed.reverse ++ b.cards.map AsnRvsBuf.counted) ++ _ = _
    rw [segments_append, hsame]
    rfl

/-- What one call does. -/
theorem exec_sound {d : DeckBuf} {call : RvsCall} (hd : d.Sound) (h : call.Safe d) :
    ∃ d', call.exec d = .ok d' ∧ d'.Sound ∧ d'.octets = call.piece ++ d.octets := by
  cases call with
  | putByteRvs byte => exact hd.putByteRvs h byte
  | putSegRvs seg => exact hd.putSegRvs h
  | insert that =>
      obtain ⟨hsmall, hlt⟩ := h
      obtain ⟨c, hcopied, hc, hsegment⟩ := hsmall.copied hlt
      obtain ⟨hdrop, hoctets⟩ := hd.dropEmptyCard
      refine ⟨d.dropEmptyCard.lay c, ?_, hdrop.lay hc, ?_⟩
      · show d.insert that = _
        rw [DeckBuf.insert, hcopied]
        rfl
      · rw [octets_lay, hsegment, hoctets]
        rfl
  | splice b => exact ⟨(d.splice b).2, rfl, splice_sound hd h⟩

/-- What a sequence of calls does. -/
theorem run_sound {d : DeckBuf} {calls : List RvsCall} (hd : d.Sound) (h : SafeRun d calls) :
    ∃ d', run d calls = .ok d' ∧ d'.Sound ∧ d'.octets = written calls ++ d.octets := by
  induction calls generalizing d with
  | nil => exact ⟨d, rfl, hd, rfl⟩
  | cons call calls ih =>
      obtain ⟨hsafe, hrest⟩ := h
      obtain ⟨d₁, hexec, hd₁, hoctets⟩ := exec_sound hd hsafe
      rw [hexec] at hrest
      obtain ⟨d₂, hrun, hd₂, hoctets₂⟩ := ih hd₁ hrest
      refine ⟨d₂, ?_, hd₂, ?_⟩
      · rw [run, hexec]
        exact hrun
      · rw [hoctets₂, hoctets, written_cons, List.append_assoc]

/-- Read from the start, in one piece or octet by octet, the buffer returns the octets; after any
of them it can be reset, and returns all of them again; and it counts them. -/
structure ReadsBack (d : DeckBuf) (os : List Octet) : Prop where
  getSeg : ∀ n ≤ os.length, ∃ d', d.resetMode.getSeg n = .ok (os.take n, d') ∧
    ∃ d'', d'.resetMode.getSeg os.length = .ok (os, d'')
  getBytes : ∀ n ≤ os.length, ∃ d', getBytes n d.resetMode = .ok (os.take n, d') ∧
    ∃ d'', DeckBuf.getBytes os.length d'.resetMode = .ok (os, d'')
  length_eq : d.length = os.length
  length_resetMode : d.resetMode.length = os.length

/-- After a sequence of safe calls the buffer reads back what they wrote. There are never so many
octets that an `unsigned long` does not count them. -/
theorem run_readsBack (calls : List RvsCall) (h : SafeRun DeckBuf.new calls)
    (hlt : (written calls).length < 2 ^ 64) :
    ∃ d, run DeckBuf.new calls = .ok d ∧ ReadsBack d (written calls) := by
  obtain ⟨d, hrun, hd, hoctets⟩ := run_sound sound_new h
  rw [show DeckBuf.new.octets = [] from rfl, List.append_nil] at hoctets
  rw [← hoctets] at hlt
  refine ⟨d, hrun, ?_⟩
  rw [← hoctets]
  refine ⟨fun n hn => ?_, fun n hn => ?_, ?_, hd.small.length_resetMode hlt⟩
  · obtain ⟨d', hget, hsame⟩ := d.getSeg_resetMode hn
    obtain ⟨d'', hagain, -⟩ := d'.getSeg_resetMode le_rfl
    rw [hsame, List.take_length] at hagain
    exact ⟨d', hget, d'', hagain⟩
  · obtain ⟨d', hget, hsame⟩ := d.getBytes_resetMode hn
    obtain ⟨d'', hagain, -⟩ := d'.getBytes_resetMode le_rfl
    rw [hsame, List.take_length] at hagain
    exact ⟨d', hget, d'', hagain⟩
  · have hsegments := hd.octets_eq
    rw [DeckBuf.length_eq hd.fresh (hsegments ▸ hlt), hsegments]

/-- A segment on top of a byte and a copy of another buffer. -/
theorem run_readsBack_three :
    ∃ d, run DeckBuf.new [putByteRvs 1, insert ⟨[], [⟨[2, 3], 0, none⟩]⟩, putSegRvs [4, 5]] =
      .ok d ∧ ReadsBack d [4, 5, 2, 3, 1] :=
  run_readsBack [putByteRvs 1, insert ⟨[], [⟨[2, 3], 0, none⟩]⟩, putSegRvs [4, 5]]
    ⟨nofun, ⟨fun c hc => by
      obtain rfl := List.mem_singleton.mp hc
      decide, by decide⟩, Or.inr fun c hc => by
        obtain rfl := Option.mem_some_iff.mp hc
        exact Or.inl rfl, trivial⟩ (by decide)

/-- After an empty buffer has been spliced, the next octet is not counted. -/
theorem length_not_sum :
    ¬ ∀ calls : List RvsCall, (written calls).length < 2 ^ 64 →
      ∃ d, run DeckBuf.new calls = .ok d ∧ ReadsBack d (written calls) := by
  intro hall
  obtain ⟨d, hrun, hreads⟩ := hall [putByteRvs 1, splice DeckBuf.new, putByteRvs 2] (by decide)
  have hd : DeckBuf.mk [] [⟨[2, 1], segSize - 1 - 1, some (1, 1)⟩] = d := Except.ok.inj hrun
  have hlength := hreads.length_eq
  rw [← hd] at hlength
  exact absurd hlength (by decide)

end RvsCall

end Esnacc
