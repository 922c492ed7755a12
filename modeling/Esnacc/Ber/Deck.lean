import Esnacc.Lib.BitString

/-!
The buffer of the basic encoding rules while it is being written: a deck of
`AsnRvsBuf` cards that are filled from the back to the front, a new card being
laid on top when the first one is full. Nothing here moves `m_card` away from the
first card of the deck, so the deck alone is the state.
-/

namespace Esnacc

open BitString

/-- `_SEG_SIZE`. -/
def segSize : ℕ := 4096

/-- `segment` is what lies between `m_pStart` and the end of `m_buf`, `room` what is
free in front of it. `unread` counts the octets behind `gptr()`; there is no such
pointer before the first read, and writing does not move it. -/
structure Card where
  segment : List Octet
  room : ℕ
  unread : Option ℕ
  deriving DecidableEq, Repr

namespace Card

/-- `AsnRvsBuf(_SEG_SIZE)`. -/
def new : Card := ⟨[], segSize, none⟩

/-- `length()`: the number of octets not read from the card. -/
def length (c : Card) : ℕ := c.unread.getD c.segment.length

/-- Asking for the length sets the read pointer of a card that has none. -/
def measured (c : Card) : Card := { c with unread := some c.length }

/-- `sputc(byte)`, when there is room. -/
def put (c : Card) (byte : Octet) : Card :=
  { c with segment := byte :: c.segment, room := c.room - 1 }

/-- `pubseekpos(0, std::ios_base::in)`. -/
def rewind (c : Card) : Card := { c with unread := some c.segment.length }

end Card

abbrev Deck := List Card

namespace Deck

/-- All octets of the deck, in reading order. -/
def octets (d : Deck) : List Octet := (d.map Card.segment).flatten

@[simp] theorem octets_nil : octets [] = [] := rfl

@[simp] theorem octets_cons (c : Card) (d : Deck) : octets (c :: d) = c.segment ++ octets d := by
  simp [octets]

@[simp] theorem octets_append (d e : Deck) : octets (d ++ e) = octets d ++ octets e := by
  simp [octets]

@[simp] theorem octets_new : octets [Card.new] = [] := rfl

def putByteRvs (d : Deck) (byte : Octet) : Deck :=
  match d with
  | [] => [Card.new.put byte]
  | c :: d => if c.room = 0 then Card.new.put byte :: c :: d else c.put byte :: d

theorem octets_putByteRvs (d : Deck) (byte : Octet) :
    octets (d.putByteRvs byte) = byte :: octets d := by
  cases d with
  | nil => rfl
  | cons c d =>
      simp only [putByteRvs]
      split <;> simp [Card.put, Card.new]

/-- `ResetMode()`. -/
def resetMode (d : Deck) : Deck := d.map Card.rewind

@[simp] theorem octets_resetMode (d : Deck) : octets d.resetMode = octets d := by
  simp [octets, resetMode, Function.comp_def, Card.rewind]

/-! ### Comparison -/

/-- `GetUByte()` on what is unread of the cards; there is no octet where the call
throws. -/
def getUByte : List (List Octet) → Option (Octet × List (List Octet))
  | [] => none
  | [] :: cards => getUByte cards
  | (ch :: chs) :: cards => some (ch, chs :: cards)

theorem getUByte_eq_none {cards : List (List Octet)} (h : getUByte cards = none) :
    cards.flatten = [] := by
  fun_induction getUByte cards with
  | case1 => rfl
  | case2 cards ih => exact ih h
  | case3 ch chs cards => cases h

theorem getUByte_eq_some {cards left : List (List Octet)} {ch : Octet}
    (h : getUByte cards = some (ch, left)) : cards.flatten = ch :: left.flatten := by
  fun_induction getUByte cards with
  | case1 => cases h
  | case2 cards ih => exact ih h
  | case3 ch chs cards =>
      obtain ⟨rfl, rfl⟩ := Prod.mk.inj (Option.some.inj h)
      rfl

/-- The loop of `operator<`. -/
def ltLoop : ℕ → List (List Octet) → List (List Octet) → Bool
  | 0, _, _ => false
  | fuel + 1, lhs, rhs =>
      match getUByte lhs, getUByte rhs with
      | none, none => false
      | some _, none => false
      | none, some _ => true
      | some (ch1, lhs), some (ch2, rhs) =>
          if ch2 < ch1 then false
          else if ch1 < ch2 then true
          else ltLoop fuel lhs rhs

/-- `operator<`: both buffers are read from their first octet on. -/
def lt (lhs rhs : Deck) : Bool :=
  ltLoop ((octets lhs).length + 1) (lhs.map Card.segment) (rhs.map Card.segment)

theorem ltLoop_eq (fuel : ℕ) (lhs rhs : List (List Octet)) (h : lhs.flatten.length < fuel) :
    ltLoop fuel lhs rhs = decide (lhs.flatten < rhs.flatten) := by
  induction fuel generalizing lhs rhs with
  | zero => omega
  | succ fuel ih =>
      unfold ltLoop
      split
      next h1 h2 => simp [getUByte_eq_none h1, getUByte_eq_none h2]
      next h1 h2 => simp [getUByte_eq_some h1, getUByte_eq_none h2]
      next h1 h2 => simp [getUByte_eq_none h1, getUByte_eq_some h2]
      next ch1 left1 ch2 left2 h1 h2 =>
        rw [getUByte_eq_some h1] at h ⊢
        rw [getUByte_eq_some h2, ih left1 left2 (by simpa using h)]
        split
        · next hlt =>
            have hne : ch1 ≠ ch2 := fun h => BitVec.lt_irrefl ch1 (h ▸ hlt)
            simp [List.cons_lt_cons_iff, hne, BitVec.le_of_lt hlt]
        · split
          · next hlt => simp [List.cons_lt_cons_iff, hlt]
          · next hge hle =>
              have heq : ch1 = ch2 :=
                BitVec.le_antisymm (BitVec.not_lt.mp hge) (BitVec.not_lt.mp hle)
              simp [heq]

/-- The boundaries between cards play no part in the comparison. -/
theorem lt_eq (lhs rhs : Deck) : lt lhs rhs = decide (octets lhs < octets rhs) :=
  ltLoop_eq _ _ _ (Nat.lt_succ_self _)

/-! ### Splicing -/

/-- The first step of `splice`: an empty current card is deleted. -/
def dropEmptyCard : Deck → Deck
  | [] => []
  | c :: d => if c.length = 0 then d else c.measured :: d

/-- `splice(b)` lays the cards of `b` on top of the deck, the last one first. -/
def splice (d b : Deck) : Deck := b.reverse.foldl (fun d c => c :: d) d.dropEmptyCard

theorem splice_eq (d b : Deck) : splice d b = b ++ d.dropEmptyCard := by
  simp [splice, List.foldl_reverse]

/-- No card was read to its end and written to afterwards. -/
def Intact (d : Deck) : Prop := ∀ c ∈ d, c.length = 0 → c.segment = []

theorem Intact.dropEmptyCard {d : Deck} (h : d.Intact) : d.dropEmptyCard.Intact := by
  cases d with
  | nil => exact h
  | cons c d =>
      simp only [Deck.dropEmptyCard]
      split
      · exact fun e he => h e (List.mem_cons_of_mem c he)
      · intro e he h0
        rcases List.mem_cons.mp he with rfl | he
        · exact h c (List.mem_cons_self) h0
        · exact h e (List.mem_cons_of_mem c he) h0

theorem Intact.octets_dropEmptyCard {d : Deck} (h : d.Intact) :
    octets d.dropEmptyCard = octets d := by
  cases d with
  | nil => rfl
  | cons c d =>
      simp only [Deck.dropEmptyCard]
      split
      · next h0 => simp [h c List.mem_cons_self h0]
      · simp [Card.measured]

theorem intact_resetMode (d : Deck) : d.resetMode.Intact := by
  intro c hc h0
  obtain ⟨c, -, rfl⟩ := List.mem_map.mp hc
  exact List.length_eq_zero_iff.mp h0

theorem Intact.append {d e : Deck} (hd : d.Intact) (he : e.Intact) : (d ++ e).Intact := by
  intro c hc
  rcases List.mem_append.mp hc with hc | hc
  · exact hd c hc
  · exact he c hc

/-- An empty card is dropped from the cards on top or from what they lie on. -/
theorem dropEmptyCard_append (d e : Deck) :
    (d ++ e).dropEmptyCard = d.dropEmptyCard ++ if d = [] then e.dropEmptyCard else e := by
  cases d with
  | nil => rfl
  | cons c d =>
      simp only [List.cons_append, dropEmptyCard]
      split <;> simp

/-- Splicing decks one after the other lays the last one on top; the cards that
were there before are a part of the buffer of its own. -/
theorem foldl_splice (ds : List Deck) (hds : ∀ d ∈ ds, d.Intact) (cards kept : Deck)
    (hcards : cards.Intact) :
    ∃ cards' kept', ds.foldl splice (cards ++ kept) = cards' ++ kept' ∧
      octets cards' = (ds.reverse.map octets).flatten ++ octets cards ∧
      (kept.Intact → octets kept' = octets kept) := by
  induction ds generalizing cards kept with
  | nil => exact ⟨cards, kept, rfl, by simp, fun _ => rfl⟩
  | cons d ds ih =>
      have hd : d.Intact := hds d List.mem_cons_self
      obtain ⟨cards', kept', hfold, hoctets, hkept⟩ :=
        ih (fun e he => hds e (List.mem_cons_of_mem d he)) (d ++ cards.dropEmptyCard)
          (if cards = [] then kept.dropEmptyCard else kept) (hd.append hcards.dropEmptyCard)
      refine ⟨cards', kept', ?_, ?_, ?_⟩
      · rw [List.foldl_cons, splice_eq, dropEmptyCard_append, ← List.append_assoc]
        exact hfold
      · simp [hoctets, hcards.octets_dropEmptyCard]
      · intro h
        split at hkept
        · rw [hkept h.dropEmptyCard, h.octets_dropEmptyCard]
        · exact hkept h

end Deck

end Esnacc
