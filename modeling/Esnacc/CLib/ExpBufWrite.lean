import Esnacc.CLib.ExpBufRead

/-!
Writing to an expanding buffer. The list of blocks always holds what has been written,
but only its last block is read. The buffer therefore works as one block of the
configured size: what is written is read back exactly if it fits into one.
-/

namespace Esnacc.CLib

open BitString

namespace Write

/-- A write fits into `room` octets, and the length of a segment stays below the room under
its conversion to `int`, unless the segment fills the room. -/
def FitsIn (room : ℕ) : Write → Prop
  | byte _ => 0 < room
  | seg data => data.length ≤ room ∧ (throughInt data.length < room ∨ data.length = room)

/-- Writes that fit into `room` octets one after the other. -/
def AllFit : ℕ → List Write → Prop
  | _, [] => True
  | room, w :: ws => w.FitsIn room ∧ AllFit (room - w.octets.length) ws

theorem length_le_stream (ws : List Write) (s : List Octet) :
    s.length ≤ (stream ws s).length := by
  rw [stream_eq, List.length_append]
  omega

end Write

/-- All writes fit into one block. Blocks of no octets cannot be written to at all. -/
def FitsOneBlock (blkSize : ℕ) (ws : List Write) : Prop :=
  (0 < blkSize ∨ ws = []) ∧ Write.AllFit blkSize ws

namespace ExpBuf

/-! ### What the list holds -/

/-- The data of the list from the current block on. -/
def written (b : ExpBuf) : List Octet := b.cur.data ++ b.nexts.flatMap Block.data

/-- A buffer that is written for the first time: no block has been left to the front, and
all blocks have the configured size. -/
structure Fresh (blkSize : ℕ) (b : ExpBuf) : Prop where
  prevs : b.prevs = []
  size : ∀ k ∈ b.cur :: b.nexts, k.room + k.data.length = blkSize

variable {blkSize : ℕ} {b b' : ExpBuf}

theorem fresh_alloc (blkSize : ℕ) : Fresh blkSize (alloc blkSize) where
  prevs := rfl
  size := by simp [alloc, allocBlock]

/-- A full block gets a new head in front of it. -/
theorem putByteRvs_eq (h : b.prevs = []) (hmode : b.cur.writeError = false) (o : Octet) :
    b.putByteRvs blkSize o =
      if b.cur.room = 0 then .error .outOfBounds
      else if b.cur.room - 1 = 0 then
        .ok ⟨[], allocBlock blkSize,
          { b.cur with room := b.cur.room - 1, data := o :: b.cur.data } :: b.nexts⟩
      else
        .ok { b with cur := { b.cur with room := b.cur.room - 1, data := o :: b.cur.data } } := by
  have hwrite : ¬ b.cur.writeError = true := by simp [hmode]
  rw [putByteRvs, if_neg hwrite]
  cases b
  cases h
  rfl

theorem putSegLoop_eq (h : b.prevs = []) (fuel : ℕ) (data : List Octet) :
    putSegLoop blkSize (fuel + 1) b data =
      if throughInt data.length < b.cur.room then
        if data.length ≤ b.cur.room then
          .ok { b with
            cur :=
              { b.cur with room := b.cur.room - data.length, data := data ++ b.cur.data } }
        else .error .outOfBounds
      else if b.cur.room ≤ data.length then
        putSegLoop blkSize fuel
          ⟨[], allocBlock blkSize,
            { b.cur with
              room := 0
              data := data.drop (data.length - b.cur.room) ++ b.cur.data } :: b.nexts⟩
          (data.take (data.length - b.cur.room))
      else .error .outOfBounds := by
  cases b
  cases h
  rfl

theorem putByteRvs_spec {o : Octet} (h : Fresh blkSize b) (hmode : b.cur.writeError = false)
    (hrun : b.putByteRvs blkSize o = .ok b') :
    Fresh blkSize b' ∧ b'.written = o :: b.written ∧ b'.cur.writeError = false := by
  have hsize := h.size
  simp only [List.forall_mem_cons] at hsize
  rw [putByteRvs_eq h.prevs hmode] at hrun
  split_ifs at hrun with hroom hfull
  · cases hrun
    refine ⟨⟨rfl, ?_⟩, by simp [written, allocBlock], rfl⟩
    simp only [List.forall_mem_cons, allocBlock, List.length_cons, List.length_nil]
    exact ⟨by omega, by omega, hsize.2⟩
  · cases hrun
    refine ⟨⟨h.prevs, ?_⟩, rfl, hmode⟩
    simp only [List.forall_mem_cons, List.length_cons]
    exact ⟨by omega, hsize.2⟩

theorem putSegLoop_spec {fuel : ℕ} {data : List Octet} (h : Fresh blkSize b)
    (hmode : b.cur.writeError = false) (hrun : putSegLoop blkSize fuel b data = .ok b') :
    Fresh blkSize b' ∧ b'.written = data ++ b.written ∧ b'.cur.writeError = false := by
  induction fuel generalizing b data with
  | zero => cases hrun
  | succ fuel ih =>
      have hsize := h.size
      simp only [List.forall_mem_cons] at hsize
      rw [putSegLoop_eq h.prevs] at hrun
      split_ifs at hrun with hfits hroom hfill
      · cases hrun
        refine ⟨⟨h.prevs, ?_⟩, by simp [written], hmode⟩
        simp only [List.forall_mem_cons, List.length_append]
        exact ⟨by omega, hsize.2⟩
      · have hnew := ih ⟨rfl, ?_⟩ rfl hrun
        · refine ⟨hnew.1, ?_, hnew.2.2⟩
          rw [hnew.2.1]
          simp [written, allocBlock, ← List.append_assoc]
        · simp only [List.forall_mem_cons, List.length_append, List.length_drop, allocBlock,
            List.length_nil]
          exact ⟨by omega, by omega, hsize.2⟩

/-- Every pass over a block with room writes an octet, so the loop ends if blocks have any
room at all. -/
theorem putSegLoop_returns (hsize : 0 < blkSize) {fuel : ℕ} {data : List Octet}
    (h : b.prevs = []) (hfuel : data.length + (if b.cur.room = 0 then 1 else 0) < fuel) :
    putSegLoop blkSize fuel b data ≠ .error .neverReturns := by
  induction fuel generalizing b data with
  | zero => omega
  | succ fuel ih =>
      rw [putSegLoop_eq h]
      split_ifs with hfits hroom hfill
      · simp
      · simp
      · apply ih rfl
        rw [List.length_take, if_neg (show ¬ (allocBlock blkSize).room = 0 from hsize.ne')]
        split_ifs at hfuel <;> omega
      · simp

/-- One write keeps what has been written and puts its octets in front. -/
theorem run_write_spec {w : Write} (h : Fresh blkSize b) (hmode : b.cur.writeError = false)
    (hrun : w.run blkSize b = .ok b') :
    Fresh blkSize b' ∧ b'.written = w.octets ++ b.written ∧ b'.cur.writeError = false := by
  cases w with
  | byte o => exact putByteRvs_spec h hmode hrun
  | seg data =>
      rw [Write.run, putSegRvs, if_neg (by simp [hmode])] at hrun
      exact putSegLoop_spec h hmode hrun

/-- After any calls that return, the list holds all that has been written. -/
theorem runAll_write_spec {ws : List Write} (h : Fresh blkSize b)
    (hmode : b.cur.writeError = false) (hrun : Write.runAll blkSize b ws = .ok b') :
    Fresh blkSize b' ∧ b'.written = Write.stream ws b.written := by
  induction ws generalizing b with
  | nil =>
      cases hrun
      exact ⟨h, rfl⟩
  | cons w ws ih =>
      rw [Write.runAll] at hrun
      split at hrun
      · cases hrun
      · rename_i b₁ hfirst
        have hstep := run_write_spec h hmode hfirst
        have hrest := ih hstep.1 hstep.2.2 hrun
        rw [hstep.2.1] at hrest
        exact hrest

/-! ### What is read of it -/

theorem toLast_eq (prevs : List Block) (cur : Block) (nexts : List Block) :
    ∃ ps, toLast prevs cur nexts = ⟨ps, (cur :: nexts).getLast (by simp), []⟩ := by
  induction nexts generalizing prevs cur with
  | nil => exact ⟨prevs, rfl⟩
  | cons n ns ih =>
      obtain ⟨ps, hps⟩ := ih (cur :: prevs) n
      exact ⟨ps, by rw [toLast, hps]; simp⟩

/-- Reading starts at the last block, whatever the others hold. -/
theorem resetInReadMode_eq (b : ExpBuf) : ∃ ps k, k ∈ b.cur :: b.nexts ∧
    b.resetInReadMode = tail ps (resetBlock k) k.data false := by
  obtain ⟨ps, hps⟩ := toLast_eq b.prevs (resetBlock b.cur) (b.nexts.map resetBlock)
  refine ⟨ps, (b.cur :: b.nexts).getLast (by simp), List.getLast_mem _, ?_⟩
  have hmap : (resetBlock b.cur :: b.nexts.map resetBlock).getLast (by simp) =
      resetBlock ((b.cur :: b.nexts).getLast (by simp)) :=
    List.getLast_map (f := resetBlock) (l := b.cur :: b.nexts) (by simp)
  rw [resetInReadMode, hps, hmap]
  rfl

/-! ### Writing that fits into one block -/

/-- A buffer of one block that holds `s`. -/
def single (blkSize : ℕ) (s : List Octet) : ExpBuf :=
  ⟨[], ⟨blkSize - s.length, s, [], false, false⟩, []⟩

/-- The last block holds `s` and is full, and a new head stands in front of it. -/
def headed (blkSize : ℕ) (s : List Octet) : ExpBuf :=
  ⟨[], allocBlock blkSize, [⟨0, s, [], false, false⟩]⟩

/-- All that has been written stands in the last block. -/
inductive OneBlock (blkSize : ℕ) (s : List Octet) : ExpBuf → Prop
  | single (h : s.length ≤ blkSize) : OneBlock blkSize s (single blkSize s)
  | headed (h : s.length = blkSize) : OneBlock blkSize s (headed blkSize s)

theorem OneBlock.writeError {s : List Octet} (h : OneBlock blkSize s b) :
    b.cur.writeError = false := by
  cases h <;> rfl

/-- Reading then starts with all that has been written. -/
theorem OneBlock.resetInReadMode {s : List Octet} (h : OneBlock blkSize s b) :
    ∃ ps k, b.resetInReadMode = tail ps k s false := by
  cases h with
  | single => exact ⟨[], ⟨blkSize - s.length, s, [], false, true⟩, rfl⟩
  | headed => exact ⟨_, ⟨0, s, [], false, true⟩, rfl⟩

theorem single_append {s data : List Octet} :
    single blkSize (data ++ s) =
      ⟨[], ⟨blkSize - s.length - data.length, data ++ s, [], false, false⟩, []⟩ := by
  rw [single, List.length_append, Nat.add_comm, Nat.sub_sub]

/-- A write that fits into what is left of the block. -/
theorem run_write_of_fits (hsize : 0 < blkSize) {s : List Octet} (h : OneBlock blkSize s b)
    {w : Write} (hfits : w.FitsIn (blkSize - s.length)) :
    ∃ b', w.run blkSize b = .ok b' ∧ OneBlock blkSize (w.octets ++ s) b' := by
  cases w with
  | byte o =>
      have hroom : 0 < blkSize - s.length := hfits
      cases h with
      | headed hfull => omega
      | single hle =>
          have hne : ¬ (single blkSize s).cur.room = 0 := hroom.ne'
          rw [Write.run, putByteRvs_eq rfl rfl, if_neg hne]
          by_cases hlast : blkSize - s.length - 1 = 0
          · have hlen : (o :: s).length = blkSize := by
              rw [List.length_cons]
              omega
            refine ⟨headed blkSize (o :: s), ?_, .headed hlen⟩
            simp [single, headed, hlast]
          · have hlen : ([o] ++ s).length ≤ blkSize := by
              rw [List.length_append, List.length_singleton]
              omega
            refine ⟨_, ?_, .single hlen⟩
            rw [single_append, if_neg (show ¬ (single blkSize s).cur.room - 1 = 0 from hlast)]
            rfl
  | seg data =>
      obtain ⟨hle, hthrough⟩ := hfits
      have hzero : throughInt 0 = 0 := throughInt_eq (by decide)
      rw [Write.run, putSegRvs, if_neg (by simp [h.writeError])]
      cases h with
      | headed hfull =>
          have hnil : data = [] := List.length_eq_zero_iff.mp (by omega)
          subst hnil
          refine ⟨headed blkSize s, ?_, .headed hfull⟩
          rw [putSegLoop_eq rfl]
          simp [headed, allocBlock, hzero, hsize]
      | single hlen =>
          rw [putSegLoop_eq rfl]
          by_cases hlt : throughInt data.length < blkSize - s.length
          · have hall : (data ++ s).length ≤ blkSize := by
              rw [List.length_append]
              omega
            refine ⟨_, ?_, .single hall⟩
            rw [single_append,
              if_pos (show throughInt data.length < (single blkSize s).cur.room from hlt)]
            exact if_pos hle
          · -- the segment fills the block, and nothing is left for the new head
            have hfull : data.length = blkSize - s.length := by omega
            have hall : (data ++ s).length = blkSize := by
              rw [List.length_append]
              omega
            refine ⟨headed blkSize (data ++ s), ?_, .headed hall⟩
            rw [if_neg (show ¬ throughInt data.length < (single blkSize s).cur.room from hlt),
              if_pos (show (single blkSize s).cur.room ≤ data.length from hfull.ge),
              putSegLoop_eq rfl]
            simp [single, headed, allocBlock, hzero, hsize, hfull]

/-- A write that returns and does not go beyond the block fits. -/
theorem fitsIn_of_run_write {s : List Octet} (h : OneBlock blkSize s b) {w : Write}
    (hrun : w.run blkSize b = .ok b') (hlen : (w.octets ++ s).length ≤ blkSize) :
    w.FitsIn (blkSize - s.length) := by
  cases w with
  | byte o =>
      have hlong : ([o] ++ s).length ≤ blkSize := hlen
      show 0 < blkSize - s.length
      rw [List.length_append, List.length_singleton] at hlong
      omega
  | seg data =>
      have hlong : (data ++ s).length ≤ blkSize := hlen
      rw [List.length_append] at hlong
      refine ⟨by omega, ?_⟩
      by_contra hnot
      rw [Write.run, putSegRvs, if_neg (by simp [h.writeError])] at hrun
      cases h with
      | headed hfull => omega
      | single hle =>
          rw [putSegLoop_eq rfl,
            if_neg (show ¬ throughInt data.length < (single blkSize s).cur.room from by
              show ¬ throughInt data.length < blkSize - s.length
              omega),
            if_neg (show ¬ (single blkSize s).cur.room ≤ data.length from by
              show ¬ blkSize - s.length ≤ data.length
              omega)] at hrun
          cases hrun

/-- Writes that fit together into one block. -/
theorem runAll_write_of_fits (hsize : 0 < blkSize) {s : List Octet}
    (h : OneBlock blkSize s b) {ws : List Write}
    (hfits : Write.AllFit (blkSize - s.length) ws) :
    ∃ b', Write.runAll blkSize b ws = .ok b' ∧ OneBlock blkSize (Write.stream ws s) b' := by
  induction ws generalizing b s with
  | nil => exact ⟨b, rfl, h⟩
  | cons w ws ih =>
      obtain ⟨hfirst, hrest⟩ := hfits
      obtain ⟨b₁, hrun, hone⟩ := run_write_of_fits hsize h hfirst
      rw [Nat.sub_sub, Nat.add_comm, ← List.length_append] at hrest
      obtain ⟨b₂, hall, hlast⟩ := ih hone hrest
      refine ⟨b₂, ?_, hlast⟩
      rw [Write.runAll, hrun]
      exact hall

/-- Writes that return, and that have not written more than one block holds, fit. -/
theorem fits_of_runAll_write (hsize : 0 < blkSize) {s : List Octet}
    (h : OneBlock blkSize s b) {ws : List Write}
    (hrun : Write.runAll blkSize b ws = .ok b')
    (hlen : (Write.stream ws s).length ≤ blkSize) : Write.AllFit (blkSize - s.length) ws := by
  induction ws generalizing b s with
  | nil => trivial
  | cons w ws ih =>
      rw [Write.runAll] at hrun
      split at hrun
      · cases hrun
      · rename_i b₁ hfirst
        have hle : (w.octets ++ s).length ≤ blkSize :=
          (Write.length_le_stream ws _).trans hlen
        have hfits := fitsIn_of_run_write h hfirst hle
        obtain ⟨b₂, hrun', hone⟩ := run_write_of_fits hsize h hfits
        rw [hfirst] at hrun'
        cases hrun'
        have hrest := ih hone hrun hlen
        rw [List.length_append, Nat.add_comm, ← Nat.sub_sub] at hrest
        exact ⟨hfits, hrest⟩

/-- Into blocks of no octets nothing can be written. -/
theorem putSegLoop_no_room (h : b.prevs = []) (hroom : b.cur.room = 0) (fuel : ℕ)
    (data : List Octet) : putSegLoop 0 fuel b data = .error .neverReturns := by
  induction fuel generalizing b data with
  | zero => rfl
  | succ fuel ih =>
      rw [putSegLoop_eq h, hroom, if_neg (Nat.not_lt_zero _), if_pos (Nat.zero_le _)]
      exact ih rfl rfl _

theorem run_write_no_room (w : Write) : ∃ t, w.run 0 (alloc 0) = .error t := by
  cases w with
  | byte o => exact ⟨_, rfl⟩
  | seg data => exact ⟨_, putSegLoop_no_room (b := alloc 0) rfl rfl _ data⟩

end ExpBuf

open ExpBuf in
/-- What is written is read back exactly if all of it fits into one block and every read fits
where it is made. -/
theorem readsBack_iff (blkSize : ℕ) (ws : List Write) (rs : List Read) :
    ReadsBack blkSize ws rs ↔
      FitsOneBlock blkSize ws ∧ Read.AllFit ⟨Write.stream ws [], false⟩ rs := by
  constructor
  · rintro ⟨b, hrun, hreads⟩
    have hsize : 0 < blkSize ∨ ws = [] := by
      cases ws with
      | nil => exact .inr rfl
      | cons w ws =>
          refine .inl (Nat.pos_of_ne_zero ?_)
          rintro rfl
          obtain ⟨t, ht⟩ := run_write_no_room w
          rw [Write.runAll, ht] at hrun
          cases hrun
    -- the reads start at one block, which holds all of the stream
    have hstart : b.resetInReadMode.Refines ⟨Write.stream ws [], false⟩ := by
      cases rs with
      | nil => exact hreads
      | cons r rs => exact hreads.1
    obtain ⟨hfresh, -⟩ := runAll_write_spec (fresh_alloc blkSize) rfl hrun
    obtain ⟨ps, k, hk, hreset⟩ := resetInReadMode_eq b
    rw [hreset, tail_refines_iff] at hstart
    have hdata : k.data = Write.stream ws [] := (congrArg Stream.rest hstart).symm
    have hlen : (Write.stream ws []).length ≤ blkSize := by
      have hroom := hfresh.size k hk
      rw [hdata] at hroom
      omega
    rw [hreset, hdata] at hreads
    refine ⟨⟨hsize, ?_⟩, (readsAs_tail_iff (by simp) rs).1 hreads⟩
    rcases hsize with hpos | hnil
    · have hone := @OneBlock.single blkSize [] (Nat.zero_le _)
      exact fits_of_runAll_write hpos hone hrun hlen
    · subst hnil
      trivial
  · rintro ⟨⟨hsize, hfits⟩, hreads⟩
    have hone := @OneBlock.single blkSize [] (Nat.zero_le _)
    have hwritten : ∃ b, Write.runAll blkSize (alloc blkSize) ws = .ok b ∧
        OneBlock blkSize (Write.stream ws []) b := by
      rcases hsize with hpos | hnil
      · exact runAll_write_of_fits hpos hone hfits
      · subst hnil
        exact ⟨_, rfl, hone⟩
    obtain ⟨b, hrun, hblock⟩ := hwritten
    obtain ⟨ps, k, hreset⟩ := hblock.resetInReadMode
    refine ⟨b, hrun, ?_⟩
    rw [hreset]
    exact (readsAs_tail_iff (s := ⟨Write.stream ws [], false⟩) (by simp) rs).2 hreads

/-- Two octets in blocks of one octet: only the one written first is read. -/
theorem not_readsBack : ¬ ∀ blkSize ws rs, ReadsBack blkSize ws rs := by
  intro h
  obtain ⟨b, hrun, hreads⟩ := h 1 [.byte 1, .byte 2] []
  have hlist : b = ⟨[], ExpBuf.allocBlock 1,
      [⟨0, [2], [], false, false⟩, ⟨0, [1], [], false, false⟩]⟩ :=
    (Except.ok.inj hrun).symm
  subst hlist
  exact absurd hreads.unread (by decide)

end Esnacc.CLib
