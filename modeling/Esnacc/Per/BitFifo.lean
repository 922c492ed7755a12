import Esnacc.Per.BitQueue

/-!
Runs of the bit buffer. A run is any list of writing calls on an empty buffer,
followed by any list of reading calls. The abstract counterpart is a queue of
bits: a writing call appends to it, a reading call takes from its front, and
neither remembers where the other calls were cut.
-/

namespace Esnacc

open BitString StreamCodec AsnBufBits

/-- A writing call. The segment has to hold the bits that are taken from it. -/
inductive WriteOp
  | putBits (seg : List Octet) (numBits : ℕ) (inSeg : numBits ≤ 8 * seg.length)
  | octetAlignWrite

/-- A reading call. -/
inductive ReadOp
  | getBits (numBits : ℕ)
  | getBit
  | getByte
  | octetAlignRead
  deriving DecidableEq, Repr

/-- What a reading call returns. -/
inductive ReadResult
  | segment (numBits : ℕ) (seg : List Octet)
  | bit (x : Bool)
  | byte (o : Octet)
  | skipped (count : ℕ)
  deriving DecidableEq, Repr

def WriteOp.run : WriteOp → PerM ℕ
  | .putBits seg numBits _ => PerM.putBits seg numBits
  | .octetAlignWrite => PerM.octetAlignWrite

def ReadOp.run : ReadOp → PerM ReadResult
  | .getBits numBits => .segment numBits <$> PerM.getBits numBits
  | .getBit => .bit <$> PerM.getBit
  | .getByte => .byte <$> PerM.getByte
  | .octetAlignRead => .skipped <$> PerM.octetAlignRead

/-! ### The queue -/

/-- What a writing call appends to a queue that has seen `pos` bits. -/
def WriteOp.bits (bAligned : Bool) (pos : ℕ) : WriteOp → List Bool
  | .putBits seg numBits _ => (octetBits seg).take numBits
  | .octetAlignWrite => List.replicate (padding bAligned pos) false

/-- The queue after a list of writing calls. -/
def enqueue (bAligned : Bool) (queue : List Bool) : List WriteOp → List Bool
  | [] => queue
  | op :: ops => enqueue bAligned (queue ++ op.bits bAligned queue.length) ops

/-- The number of bits a reading call takes at position `pos`. -/
def ReadOp.width (bAligned : Bool) (pos : ℕ) : ReadOp → ℕ
  | .getBits numBits => numBits
  | .getBit => 1
  | .getByte => 8
  | .octetAlignRead => padding bAligned pos

/-- The number of bits a list of reading calls takes. -/
def demand (bAligned : Bool) (pos : ℕ) : List ReadOp → ℕ
  | [] => 0
  | op :: ops => op.width bAligned pos + demand bAligned (pos + op.width bAligned pos) ops

/-- What a reading call returns when it takes `xs`. -/
def ReadOp.result (xs : List Bool) : ReadOp → ReadResult
  | .getBits numBits => .segment numBits (pack xs ++ [0])
  | .getBit => .bit (xs.headD false)
  | .getByte => .byte (ofBits xs)
  | .octetAlignRead => .skipped xs.length

/-- What a list of reading calls returns, each taking its bits from the front
of the queue. -/
def dequeue (bAligned : Bool) (pos : ℕ) (queue : List Bool) : List ReadOp → List ReadResult
  | [] => []
  | op :: ops =>
      op.result (queue.take (op.width bAligned pos)) ::
        dequeue bAligned (pos + op.width bAligned pos) (queue.drop (op.width bAligned pos)) ops

/-- The data bits in a result. -/
def ReadResult.bits : ReadResult → List Bool
  | .segment numBits seg => (octetBits seg).take numBits
  | .bit x => [x]
  | .byte o => bitsOf o
  | .skipped _ => []

/-! ### One call -/

variable {bAligned : Bool}

theorem WriteOp.emits (pre : List Bool) (op : WriteOp) :
    Emits (Written bAligned) pre op.run (op.bits bAligned pre.length).length
      (op.bits bAligned pre.length) := by
  cases op with
  | putBits seg numBits inSeg =>
      have hlen : ((octetBits seg).take numBits).length = numBits := by simpa using inSeg
      show Emits _ _ (PerM.putBits seg numBits) ((octetBits seg).take numBits).length _
      rw [hlen]
      exact emits_putBits pre inSeg
  | octetAlignWrite =>
      show Emits _ _ PerM.octetAlignWrite
        (List.replicate (padding bAligned pre.length) false).length _
      rw [List.length_replicate]
      exact emits_octetAlignWrite pre

theorem ReadOp.takes (pos : ℕ) (op : ReadOp) {xs : List Bool}
    (hxs : xs.length = op.width bAligned pos) :
    Takes (Unread bAligned) pos xs op.run (op.result xs) := by
  cases op with
  | getBits numBits =>
      obtain rfl : xs.length = numBits := hxs
      exact (takes_getBits pos xs).map (ReadResult.segment xs.length)
  | getBit =>
      obtain ⟨x, rfl⟩ := List.length_eq_one_iff.mp hxs
      exact (takes_getBit pos x).map ReadResult.bit
  | getByte =>
      have hlen : xs.length = 8 := hxs
      have hfull : bitsOf (ofBits xs) = xs := by
        rw [bitsOf_ofBits hlen.le]
        simp [hlen]
      have htake := (@takes_getByte bAligned pos (ofBits xs)).map ReadResult.byte
      rw [hfull] at htake
      exact htake
  | octetAlignRead =>
      have htake := (takes_octetAlignRead pos hxs).map ReadResult.skipped
      rw [← show xs.length = padding bAligned pos from hxs] at htake
      exact htake

/-! ### Whole runs -/

theorem emits_mapM_run (pre : List Bool) (ws : List WriteOp) :
    ∃ counts xs, Emits (Written bAligned) pre (ws.mapM WriteOp.run) counts xs ∧
      enqueue bAligned pre ws = pre ++ xs ∧ counts.sum = xs.length := by
  induction ws generalizing pre with
  | nil => exact ⟨[], [], Emits.pure pre [], (List.append_nil pre).symm, rfl⟩
  | cons op ops ih =>
      obtain ⟨counts, xs, hrun, hqueue, hsum⟩ := ih (pre ++ op.bits bAligned pre.length)
      refine ⟨(op.bits bAligned pre.length).length :: counts, op.bits bAligned pre.length ++ xs,
        ?_, ?_, ?_⟩
      · rw [List.mapM_cons]
        refine (op.emits pre).bind ?_
        simpa using hrun.map (List.cons (op.bits bAligned pre.length).length)
      · rw [enqueue, hqueue, List.append_assoc]
      · simp [hsum]

theorem takes_mapM_run (pos : ℕ) (rs : List ReadOp) {xs : List Bool} (rest : List Bool)
    (hxs : xs.length = demand bAligned pos rs) :
    Takes (Unread bAligned) pos xs (rs.mapM ReadOp.run)
      (dequeue bAligned pos (xs ++ rest) rs) := by
  induction rs generalizing pos xs with
  | nil =>
      obtain rfl : xs = [] := List.length_eq_zero_iff.mp hxs
      exact Takes.pure pos []
  | cons op ops ih =>
      rw [demand] at hxs
      obtain ⟨front, back, rfl, hfront⟩ : ∃ front back, xs = front ++ back ∧
          front.length = op.width bAligned pos :=
        ⟨xs.take (op.width bAligned pos), xs.drop (op.width bAligned pos), by simp, by simp; omega⟩
      have hback : back.length = demand bAligned (pos + front.length) ops := by
        rw [List.length_append] at hxs
        rw [hfront]
        omega
      have hnext := ih (pos + front.length) hback
      rw [List.mapM_cons, dequeue, ← hfront, List.append_assoc, List.take_left, List.drop_left]
      refine (op.takes pos hfront).bind ?_
      simpa using hnext.map (List.cons (op.result front))

/-- The data bits that are returned are those of the queue, as long as nothing
is skipped. -/
theorem bits_dequeue (pos : ℕ) (queue : List Bool) (rs : List ReadOp)
    (hskip : ReadOp.octetAlignRead ∉ rs) (hrs : demand bAligned pos rs ≤ queue.length) :
    (dequeue bAligned pos queue rs).flatMap ReadResult.bits =
      queue.take (demand bAligned pos rs) := by
  induction rs generalizing pos queue with
  | nil => simp [dequeue, demand]
  | cons op ops ih =>
      rw [demand] at hrs
      have hops := ih (pos + op.width bAligned pos) (queue.drop (op.width bAligned pos))
        (fun hmem => hskip (List.mem_cons_of_mem _ hmem)) (by simp; omega)
      have hbits : (op.result (queue.take (op.width bAligned pos))).bits =
          queue.take (op.width bAligned pos) := by
        have hlen : (queue.take (op.width bAligned pos)).length = op.width bAligned pos := by
          simp; omega
        cases op with
        | getBits numBits =>
            have hlen : (queue.take numBits).length = numBits := hlen
            show (octetBits (pack (queue.take numBits) ++ [0])).take numBits = queue.take numBits
            rw [octetBits_append, octetBits_pack, List.append_assoc,
              List.take_append_of_le_length hlen.ge, List.take_of_length_le hlen.le]
        | getBit =>
            obtain ⟨x, hx⟩ := List.length_eq_one_iff.mp hlen
            rw [hx]
            rfl
        | getByte =>
            show bitsOf (ofBits _) = _
            rw [bitsOf_ofBits hlen.le, hlen]
            exact List.append_nil _
        | octetAlignRead => exact absurd List.mem_cons_self hskip
      rw [dequeue, List.flatMap_cons, hops, hbits, demand, List.take_add]

/-- Whatever the writing calls put into an empty buffer, the reading calls take
out in the order of the queue. -/
theorem bitBuffer_fifo (bAligned : Bool) (ws : List WriteOp) (rs : List ReadOp)
    (hrs : demand bAligned 0 rs ≤ (enqueue bAligned [] ws).length) :
    ∃ counts written read,
      (ws.mapM WriteOp.run).run (new bAligned) = .ok (counts, written) ∧
      counts.sum = (enqueue bAligned [] ws).length ∧
      written.ulNumBits = (enqueue bAligned [] ws).length ∧
      (rs.mapM ReadOp.run).run written =
        .ok (dequeue bAligned 0 (enqueue bAligned [] ws) rs, read) ∧
      (ReadOp.octetAlignRead ∉ rs →
        (dequeue bAligned 0 (enqueue bAligned [] ws) rs).flatMap ReadResult.bits =
          (enqueue bAligned [] ws).take (demand bAligned 0 rs)) ∧
      read.ulBitsLeft = (enqueue bAligned [] ws).length - demand bAligned 0 rs := by
  obtain ⟨counts, queue, hwrites, hqueue, hsum⟩ := @emits_mapM_run bAligned [] ws
  rw [List.nil_append] at hqueue
  rw [hqueue] at hrs ⊢
  obtain ⟨written, hwrite, hwritten⟩ := hwrites (new bAligned) (written_new bAligned)
  rw [List.nil_append] at hwritten
  -- the bits that are asked for, and those that stay
  obtain ⟨xs, rest, rfl, hxs⟩ : ∃ xs rest, queue = xs ++ rest ∧ xs.length = demand bAligned 0 rs :=
    ⟨queue.take (demand bAligned 0 rs), queue.drop (demand bAligned 0 rs), by simp, by simp; omega⟩
  obtain ⟨read, hread, hunread⟩ := takes_mapM_run 0 rs rest hxs written rest hwritten.unread
  refine ⟨counts, written, read, hwrite, hsum, hwritten.numBits, hread,
    fun hskip => bits_dequeue 0 _ rs hskip hrs, ?_⟩
  rw [hunread.bitsLeft, List.length_append, hxs, Nat.add_sub_cancel_left]

/-- Three bits, padding and nine more bits, read in other pieces. -/
theorem bitBuffer_fifo_padded :
    ∃ counts written read,
      ([.putBits [0xA5] 3 (by decide), .octetAlignWrite,
        .putBits [0xC3, 0x80] 9 (by decide)].mapM WriteOp.run).run (new true) =
          .ok (counts, written) ∧
      ([.getBit, .getBits 2, .octetAlignRead, .getBit, .getByte].mapM ReadOp.run).run written =
        .ok ([.bit true, .segment 2 [0x40, 0], .skipped 5, .bit true, .byte 0x87], read) := by
  obtain ⟨counts, written, read, hwrite, -, -, hread, -⟩ := bitBuffer_fifo true
    [.putBits [0xA5] 3 (by decide), .octetAlignWrite, .putBits [0xC3, 0x80] 9 (by decide)]
    [.getBit, .getBits 2, .octetAlignRead, .getBit, .getByte] (by decide)
  exact ⟨counts, written, read, hwrite, hread⟩

end Esnacc
