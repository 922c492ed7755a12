import Esnacc.CLib.Int

/-!
The expanding buffer of the C runtime library. A buffer is a doubly linked list of
blocks that is written from its end: data is put in front of what has been written,
and a full block gets a new one in front of it. The handle `*b` points to the block
that is written or read, so the list is kept as a zipper around that block.
-/

namespace Esnacc.CLib

open BitString

/-- A call that does not return: it accesses memory outside of a block or of the
destination, or it loops. -/
inductive Trap
  | outOfBounds
  | neverReturns
  deriving DecidableEq, Repr

/-- A `size_t` converted to `int` and back, as in comparisons with `(int) len`. -/
def throughInt (len : ℕ) : ℕ :=
  if len % 2 ^ 32 < 2 ^ 31 then len % 2 ^ 32 else len % 2 ^ 32 + (2 ^ 64 - 2 ^ 32)

/-- One `ExpBuf` of the list. `room` octets lie between `blkStart` and `dataStart`, `data`
between `dataStart` and `dataEnd`, and `unread` between `curr` and `dataEnd`. -/
structure Block where
  room : ℕ
  data : List Octet
  unread : List Octet
  readError : Bool
  writeError : Bool
  deriving DecidableEq, Repr

/-- The block `*b`, those before it with the nearest first, and those after it. -/
structure ExpBuf where
  prevs : List Block
  cur : Block
  nexts : List Block
  deriving DecidableEq, Repr

namespace ExpBuf

/-- `ExpBufAllocBufAndData`, `expBufDataBlkSizeG` being the size. -/
def allocBlock (blkSize : ℕ) : Block := ⟨blkSize, [], [], false, false⟩

def alloc (blkSize : ℕ) : ExpBuf := ⟨[], allocBlock blkSize, []⟩

def atEod (b : ExpBuf) : Bool := b.cur.unread = []

def setReadError (b : ExpBuf) : ExpBuf := { b with cur := { b.cur with readError := true } }

/-! ### Resetting -/

def resetBlock (k : Block) : Block :=
  { k with unread := k.data, readError := false, writeError := true }

/-- Follows `next` to the last block. -/
def toLast (prevs : List Block) (cur : Block) : List Block → ExpBuf
  | [] => ⟨prevs, cur, []⟩
  | n :: ns => toLast (cur :: prevs) n ns

/-- The handle is left at the last block whose `next` was followed. -/
def resetInReadMode (b : ExpBuf) : ExpBuf :=
  toLast b.prevs (resetBlock b.cur) (b.nexts.map resetBlock)

def resetInWriteRvsMode (b : ExpBuf) : ExpBuf :=
  { b with
    cur :=
      { b.cur with
        room := b.cur.room + b.cur.data.length
        data := []
        writeError := false
        readError := true } }

/-! ### Writing -/

/-- The block before the current one, allocated if there is none, and whether there
was one. -/
def toPrev (blkSize : ℕ) (b : ExpBuf) : ExpBuf × Bool :=
  match b.prevs with
  | [] => (⟨[], allocBlock blkSize, b.cur :: b.nexts⟩, false)
  | p :: ps => (⟨ps, p, b.cur :: b.nexts⟩, true)

def putByteRvs (blkSize : ℕ) (b : ExpBuf) (byte : Octet) : Except Trap ExpBuf :=
  if b.cur.writeError then .ok b
  else if b.cur.room = 0 then .error .outOfBounds
  else
    let b := { b with cur := { b.cur with room := b.cur.room - 1, data := byte :: b.cur.data } }
    if b.cur.room = 0 then
      let (b, linked) := b.toPrev blkSize
      .ok (if linked then b.resetInWriteRvsMode else b)
    else .ok b

/-- The loop of `ExpBufPutSegRvs`; `data` is what is still to be written. -/
def putSegLoop (blkSize : ℕ) : ℕ → ExpBuf → List Octet → Except Trap ExpBuf
  | 0, _, _ => .error .neverReturns
  | fuel + 1, b, data =>
      let room := b.cur.room
      if throughInt data.length < room then
        if data.length ≤ room then
          .ok { b with
            cur := { b.cur with room := room - data.length, data := data ++ b.cur.data } }
        else .error .outOfBounds
      else if room ≤ data.length then
        -- the end of the data fills the block
        let b := { b with
          cur := { b.cur with
            room := 0, data := data.drop (data.length - room) ++ b.cur.data } }
        putSegLoop blkSize fuel (b.toPrev blkSize).1 (data.take (data.length - room))
      else .error .outOfBounds

def putSegRvs (blkSize : ℕ) (b : ExpBuf) (data : List Octet) : Except Trap ExpBuf :=
  if b.cur.writeError then .ok b else putSegLoop blkSize (data.length + 2) b data

/-! ### Reading -/

/-- Passes over blocks without data, up to the last one. -/
def skipEmpty (prevs : List Block) (cur : Block) : List Block → ExpBuf
  | [] => ⟨prevs, cur, []⟩
  | n :: ns => if cur.data = [] then skipEmpty (cur :: prevs) n ns else ⟨prevs, cur, n :: ns⟩

/-- Goes to the next block with valid data and sets `curr` to its beginning. -/
def toNext (b : ExpBuf) : ExpBuf :=
  match b.nexts with
  | [] => b
  | n :: ns =>
      let b := skipEmpty (b.cur :: b.prevs) n ns
      { b with cur := { b.cur with unread := b.cur.data } }

def getByte (b : ExpBuf) : Octet × ExpBuf :=
  match b.cur.unread with
  | [] => (0, b.setReadError)
  | byte :: rest =>
      let b := { b with cur := { b.cur with unread := rest } }
      (byte, if b.atEod then b.toNext else b)

/-- The octets the returned pointer references, `none` being the null pointer. -/
def getSeg (b : ExpBuf) (len : ℕ) : Except Trap (Option (List Octet) × ExpBuf) :=
  let unread := b.cur.unread
  if unread = [] then .ok (none, b)
  else if unread.length ≤ throughInt len then
    match b.nexts with
    | _ :: _ => .ok (some unread, b.toNext)
    | [] => .ok (some unread, { b with cur := { b.cur with unread := [] } })
  else if unread.length < len then .error .outOfBounds
  else
    .ok (some (unread.take len), { b with cur := { b.cur with unread := unread.drop len } })

/-- The loop of `ExpBufCopy`; `got` is what has been copied. -/
def copyLoop (len : ℕ) : ℕ → ExpBuf → List Octet → Except Trap (List Octet × ExpBuf)
  | 0, _, _ => .error .neverReturns
  | fuel + 1, b, got =>
      match b.getSeg (len - got.length) with
      | .error e => .error e
      | .ok (seg, b) =>
          let got' := got ++ seg.getD []
          if len < got'.length then .error .outOfBounds
          else if throughInt len ≤ got'.length then .ok (got', b)
          else if seg.getD [] = [] then .ok (got', b.setReadError)
          else copyLoop len fuel b got'

/-- What can still be read. -/
def unread (b : ExpBuf) : List Octet := b.cur.unread ++ b.nexts.flatMap Block.data

def copy (b : ExpBuf) (len : ℕ) : Except Trap (List Octet × ExpBuf) :=
  copyLoop len (b.unread.length + 2) b []

/-- The loop of `ExpBufSkip`; `len -= lenRemaining` wraps around. -/
def skipLoop : ℕ → ExpBuf → ℕ → Except Trap ExpBuf
  | 0, _, _ => .error .neverReturns
  | fuel + 1, b, len =>
      if len = 0 then .ok b
      else
        match b.getSeg len with
        | .error e => .error e
        | .ok (none, b) => .ok b
        | .ok (some seg, b) =>
            if seg = [] then .ok b.setReadError
            else
              skipLoop fuel b
                (if seg.length ≤ len then len - seg.length else len + 2 ^ 64 - seg.length)

def skip (b : ExpBuf) (len : ℕ) : Except Trap ExpBuf := skipLoop (b.unread.length + 2) b len

/-- `ExpBufPeekSeg`: where the data of the block ends, the length is set to that of nothing. -/
def peekSeg (b : ExpBuf) (len : ℕ) : Option (List Octet) :=
  let unread := b.cur.unread
  if unread = [] then none
  else if unread.length ≤ len then some []
  else some (unread.take len)

/-- The block before the current one. -/
def goBack (b : ExpBuf) : ExpBuf :=
  match b.prevs with
  | [] => b
  | p :: ps => ⟨ps, p, b.cur :: b.nexts⟩

/-- The loop of `ExpBufPeekCopy`, with the handle where the loop leaves it. -/
def peekCopyLoop (len : ℕ) : ℕ → ExpBuf → List Octet → List Octet × ExpBuf
  | 0, b, got => (got, b)
  | fuel + 1, b, got =>
      let seg := (b.peekSeg (len - got.length)).getD []
      let got' := got ++ seg
      if len ≤ got'.length ∨ b.nexts = [] then (got', b)
      else if seg = [] then (got', b.setReadError)
      else peekCopyLoop len fuel b.toNext got'

/-- The handle is put back to `origBuf`. Each pass goes to a later block. -/
def peekCopy (b : ExpBuf) (len : ℕ) : List Octet × ExpBuf :=
  let (got, b') := peekCopyLoop len (b.nexts.length + 1) b []
  (got, goBack^[b'.prevs.length - b.prevs.length] b')

end ExpBuf

/-! ### What the buffer is for -/

/-- A call that writes. -/
inductive Write
  | byte (byte : Octet)
  | seg (data : List Octet)
  deriving DecidableEq, Repr

namespace Write

def octets : Write → List Octet
  | byte o => [o]
  | seg data => data

/-- What calls have written in front of `s`, the last call first. -/
def stream : List Write → List Octet → List Octet
  | [], s => s
  | w :: ws, s => stream ws (w.octets ++ s)

theorem stream_eq (ws : List Write) (s : List Octet) :
    stream ws s = ws.reverse.flatMap octets ++ s := by
  induction ws generalizing s with
  | nil => rfl
  | cons w ws ih => simp [stream, ih]

def run (blkSize : ℕ) (b : ExpBuf) : Write → Except Trap ExpBuf
  | byte o => b.putByteRvs blkSize o
  | seg data => b.putSegRvs blkSize data

def runAll (blkSize : ℕ) : ExpBuf → List Write → Except Trap ExpBuf
  | b, [] => .ok b
  | b, w :: ws =>
      match w.run blkSize b with
      | .error e => .error e
      | .ok b => runAll blkSize b ws

end Write

/-- A call that reads. -/
inductive Read
  | getByte
  | getSeg (len : ℕ)
  | copy (len : ℕ)
  | skip (len : ℕ)
  | peekCopy (len : ℕ)
  deriving DecidableEq, Repr

/-- What the code returns. -/
def Read.run (b : ExpBuf) : Read → Except Trap (List Octet × ExpBuf)
  | getByte => .ok ([b.getByte.1], b.getByte.2)
  | getSeg len => (b.getSeg len).map fun r => (r.1.getD [], r.2)
  | copy len => b.copy len
  | skip len => (b.skip len).map fun b => ([], b)
  | peekCopy len => .ok (b.peekCopy len)

/-- A sequence of octets that is read, and whether a read has gone past its end. -/
structure Stream where
  rest : List Octet
  readError : Bool
  deriving DecidableEq, Repr

/-- What a read may return from a stream, and what it leaves. Only `getSeg` has a choice:
it may stop at any octet but has to return one if it can. -/
inductive Read.Yields : Stream → Read → List Octet → Stream → Prop
  | byte (o : Octet) (rest : List Octet) (e : Bool) :
      Yields ⟨o :: rest, e⟩ .getByte [o] ⟨rest, e⟩
  | endOfData (e : Bool) : Yields ⟨[], e⟩ .getByte [0] ⟨[], true⟩
  | seg (n len : ℕ) (rest : List Octet) (e : Bool) (hlen : n ≤ len) (hrest : n ≤ rest.length)
      (hsome : n = 0 → len = 0 ∨ rest = []) :
      Yields ⟨rest, e⟩ (.getSeg len) (rest.take n) ⟨rest.drop n, e⟩
  | copy (len : ℕ) (rest : List Octet) (e : Bool) :
      Yields ⟨rest, e⟩ (.copy len) (rest.take len)
        ⟨rest.drop len, e || decide (rest.length < len)⟩
  | skip (len : ℕ) (rest : List Octet) (e : Bool) :
      Yields ⟨rest, e⟩ (.skip len) [] ⟨rest.drop len, e⟩
  | peekCopy (len : ℕ) (rest : List Octet) (e : Bool) :
      Yields ⟨rest, e⟩ (.peekCopy len) (rest.take len) ⟨rest, e⟩

/-- The buffer stands where the stream stands. -/
structure ExpBuf.Refines (b : ExpBuf) (s : Stream) : Prop where
  unread : b.unread = s.rest
  readError : b.cur.readError = s.readError

/-- The reads return what they may return from the stream. -/
def ReadsAs : ExpBuf → Stream → List Read → Prop
  | b, s, [] => b.Refines s
  | b, s, r :: rs =>
      b.Refines s ∧ ∃ out b' s', r.run b = .ok (out, b') ∧ Read.Yields s r out s' ∧ ReadsAs b' s' rs

/-- Whatever is written to a fresh buffer is read back, the last written first. -/
def ReadsBack (blkSize : ℕ) (ws : List Write) (rs : List Read) : Prop :=
  ∃ b, Write.runAll blkSize (ExpBuf.alloc blkSize) ws = .ok b ∧
    ReadsAs b.resetInReadMode ⟨Write.stream ws [], false⟩ rs

end Esnacc.CLib
