import Esnacc.Lib.Cursor
import Esnacc.Lib.BitString
import Esnacc.Runtime.Exception
import Esnacc.Runtime.Word
import Esnacc.Ber.Deck

/-!
The buffer of the basic encoding rules while it is being read, and the decoding of
tags and lengths. The cards of the deck are read as one sequence of octets.
-/

namespace Esnacc

open BitString

/-- `m_card` and the read pointers of the cards are the position of the cursor. -/
abbrev AsnBuf := Cursor Octet

abbrev BerM := StateT AsnBuf (Except Fault)

/-- `PutSegRvs`. -/
def Deck.putSegRvs (d : Deck) (seg : List Octet) : Deck :=
  seg.foldr (fun byte d => d.putByteRvs byte) (if d.isEmpty then [Card.new] else d)

theorem Deck.octets_putSegRvs (d : Deck) (seg : List Octet) :
    octets (d.putSegRvs seg) = seg ++ octets d := by
  induction seg with
  | nil => cases d <;> rfl
  | cons byte seg ih =>
      rw [putSegRvs, List.foldr_cons, octets_putByteRvs]
      exact congrArg (byte :: ·) ih

/-- `INDEFINITE_LEN`. -/
def indefiniteLen : ℕ := 2 ^ 64 - 1

namespace AsnBuf

/-- `GetByte`, and `GetUByte`, which casts the result. -/
def getByte : BerM Octet
  | ⟨_, []⟩ => .error (bufferException "Read past end of data")
  | ⟨past, ch :: rest⟩ => .ok (ch, ⟨ch :: past, rest⟩)

def peekByte : BerM Octet
  | ⟨_, []⟩ => .error (bufferException "Read past end of data")
  | ⟨past, ch :: rest⟩ => .ok (ch, ⟨past, ch :: rest⟩)

def getSeg (segLen : ℕ) : BerM (List Octet) := fun b =>
  if segLen ≤ b.rest.length then .ok (b.rest.take segLen, b.advance segLen)
  else .error (bufferException "Read past end of data")

def unGetBytes (lBytesToPutBack : ℕ) : BerM Unit := fun b =>
  if lBytesToPutBack ≤ b.past.length then .ok ((), b.goBack lBytesToPutBack)
  else .error (bufferException "Failed putting bytes back")

def getReadLoc : BerM ℕ := fun b => .ok (b.past.length, b)

def setReadLoc (bl : ℕ) : BerM Unit := fun b => .ok ((), b.seek bl)

/-- What `length()` counts on one card: the positions are `int`s. -/
def bytesRemaining (b : AsnBuf) : ℕ :=
  let currPos := if toInt32 b.past.length = -1 then 0 else toInt32 b.past.length
  let endPos := toInt32 (b.past.length + b.rest.length : ℕ)
  toUlong (toInt32 (endPos - currPos))

def length : BerM ℕ := fun b => .ok (bytesRemaining b, b)

/-! ### Reading -/

theorem getByte_reads (past rest : List Octet) (ch : Octet) :
    Cursor.Reads past rest getByte [ch] ch := rfl

/-- A program that looks at the next octet first. -/
theorem peekByte_bind_reads {α : Type} {past rest xs os : List Octet} {ch : Octet}
    {f : Octet → BerM α} {a : α} (hnext : xs ++ rest = ch :: os)
    (h : Cursor.Reads past rest (f ch) xs a) : Cursor.Reads past rest (peekByte >>= f) xs a := by
  rw [Cursor.Reads, hnext] at h ⊢
  exact h

theorem getSeg_reads (past rest xs : List Octet) :
    Cursor.Reads past rest (getSeg xs.length) xs xs := by
  simp only [Cursor.Reads, getSeg, StateT.run, List.length_append, Nat.le_add_right, if_true,
    List.take_left', Cursor.advance_append]

theorem getSeg_fails {ahead : List Octet} {n : ℕ} (past : List Octet) (h : ahead.length < n) :
    Cursor.Fails past ahead (getSeg n) :=
  ⟨_, if_neg (Nat.not_le.mpr h)⟩

theorem length_run (b : AsnBuf) : length.run b = .ok (bytesRemaining b, b) := rfl

theorem bytesRemaining_eq {b : AsnBuf} (h : b.all.length < 2 ^ 31) :
    bytesRemaining b = b.rest.length := by
  rw [Cursor.length_all] at h
  have hcurr : toInt32 b.past.length = b.past.length := toInt32_eq (by omega) (by omega)
  have hend : toInt32 (b.past.length + b.rest.length : ℕ) = (b.past.length + b.rest.length : ℕ) :=
    toInt32_eq (by omega) (by omega)
  have hpos : ¬ (b.past.length : ℤ) = -1 := by omega
  simp only [bytesRemaining, hcurr, hend, if_neg hpos]
  rw [show ((b.past.length + b.rest.length : ℕ) : ℤ) - b.past.length = b.rest.length by omega,
    toInt32_eq (by omega) (by omega), toUlong_natCast (by omega)]

end AsnBuf

end Esnacc
