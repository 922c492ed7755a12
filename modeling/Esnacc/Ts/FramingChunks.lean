import Esnacc.Ts.FramingRecovery

/-!
On a stream that is nothing but frames, `handleFraming` returns the frames one by one, and its
buffer holds what has arrived of the next, wherever the chunks end.
-/

namespace Esnacc.Ts

open BitString

/-- What is sent for a frame that is handed on. -/
inductive WellFormed : List Octet → Frame → Prop
  | json (digits : List Octet) (payload : List Octet) (hdigits : digits.length = 7)
      (hall : ∀ o ∈ digits, isDigitOctet o) (hlen : decimal (digits.map BitVec.toNat) =
        payload.length) : WellFormed (frameStartJson :: (digits ++ payload)) payload
  | short (tag : Octet) (content : List Octet) (htag : isRoseTag tag)
      (hlen : content.length < 128) :
      WellFormed (tag :: BitVec.ofNat 8 content.length :: content)
        (tag :: BitVec.ofNat 8 content.length :: content)
  | long (tag : Octet) (lengthOctets content : List Octet) (htag : isRoseTag tag)
      (hpos : 0 < lengthOctets.length) (hfour : lengthOctets.length ≤ 4)
      (hlen : natOfOctets lengthOctets = content.length) (hlt : content.length < 2 ^ 31) :
      WellFormed (tag :: BitVec.ofNat 8 (128 + lengthOctets.length) :: (lengthOctets ++ content))
        (tag :: BitVec.ofNat 8 (128 + lengthOctets.length) :: (lengthOctets ++ content))

/-- Frames and octets that start no frame, with no malformed header among them. -/
inductive Clean : List Octet → Prop
  | wait {b : List Octet} (h : header b = .wait) : Clean b
  | frame {b : List Octet} {f : Frame} {n : ℕ} (h : header b = .frame f n)
      (hrest : Clean (b.drop n)) : Clean b
  | junk {b : List Octet} (h : header b = .junk) (hrest : Clean b.tail) : Clean b

theorem Clean.inv {b : List Octet} (h : Clean b) :
    match header b with
    | .wait => True
    | .frame _ n => Clean (b.drop n)
    | .junk => Clean b.tail
    | .badDigits | .laxDigits _ | .badForm | .overlong => False := by
  cases h with
  | wait h => simp [h]
  | frame h hrest => simpa [h] using hrest
  | junk h hrest => simpa [h] using hrest

/-- A call returns the frames of the buffer, and keeps what is left undecided. -/
theorem call_of_clean {b rest : List Octet} (acc : List Frame) (h : Clean (b ++ rest)) :
    (∃ fuel, framingLoop fuel b acc = some (.ok (acc ++ framesOf b), tcpFramer.residual b)) ∧
      Clean (tcpFramer.residual b ++ rest) := by
  induction b using header_induction generalizing acc with
  | wait b hb =>
      rw [framesOf_wait hb, Framer.residual_of_wait (front_eq hb), List.append_nil]
      refine ⟨⟨1, ?_⟩, h⟩
      rw [framingLoop_succ 0 (by rw [hb]; simp), hb]
  | frame b f n hb ih =>
      have hinv := h.inv
      rw [header_of_append hb (by simp)] at hinv
      dsimp only at hinv
      rw [List.drop_append_of_le_length (size_of_frame hb).2] at hinv
      obtain ⟨⟨fuel, hloop⟩, hclean⟩ := ih (acc ++ [f]) hinv
      rw [framesOf_frame hb, Framer.residual_of_frame (front_eq hb)]
      refine ⟨⟨fuel + 1, ?_⟩, hclean⟩
      rw [framingLoop_succ fuel (by rw [hb]; simp), hb]
      simpa using hloop
  | skip b hfront ih =>
      have hne : header b ≠ .wait := by
        intro hb
        rw [hb] at hfront
        cases hfront
      have hinv := h.inv
      rw [header_append hne, tail_append_of_header hne] at hinv
      cases hb : header b with
      | wait => exact absurd hb hne
      | frame f n => rw [hb] at hfront; cases hfront
      | junk =>
          rw [hb] at hinv
          obtain ⟨⟨fuel, hloop⟩, hclean⟩ := ih acc hinv
          rw [framesOf_skip hfront, Framer.residual_of_skip (front_eq hb)]
          refine ⟨⟨fuel + 1, ?_⟩, hclean⟩
          rw [framingLoop_succ fuel (by rw [hb]; simp), hb]
          exact hloop
      | badDigits | laxDigits n | badForm | overlong =>
          rw [hb] at hinv
          exact absurd hinv not_false

theorem receives_of_clean (chunks : List (List Octet)) {pending : List Octet}
    (hpending : header pending = .wait) (h : Clean (pending ++ chunks.flatten)) :
    Receives pending chunks (framesOf (pending ++ chunks.flatten))
      (tcpFramer.residual (pending ++ chunks.flatten)) := by
  induction chunks generalizing pending with
  | nil =>
      rw [List.flatten_nil, List.append_nil, framesOf_wait hpending,
        Framer.residual_of_wait (front_eq hpending)]
      exact .nil pending
  | cons data chunks ih =>
      rw [List.flatten_cons, ← List.append_assoc] at h ⊢
      obtain ⟨⟨fuel, hloop⟩, hclean⟩ := call_of_clean [] h
      have hwait : header (tcpFramer.residual (pending ++ data)) = .wait := by
        have hfront := Framer.front_residual (F := tcpFramer) (pending ++ data)
        change (header _).front = .wait at hfront
        cases hb : header (tcpFramer.residual (pending ++ data)) <;> rw [hb] at hfront <;>
          first | rfl | cases hfront
      rw [framesOf, Framer.frames_append (pending ++ data),
        Framer.residual_append (pending ++ data)]
      exact .cons ⟨fuel, hloop⟩ (ih hwait hclean)

/-! ### Streams of frames -/

theorem toNat_ofNat_length {n : ℕ} (h : n < 256) : (BitVec.ofNat 8 n).toNat = n := by
  rw [BitVec.toNat_ofNat]
  omega

theorem header_of_wellFormed {wire : List Octet} {f : Frame} (h : WellFormed wire f) :
    header wire = .frame f wire.length := by
  have hnotjson {tag : Octet} (htag : isRoseTag tag) : tag ≠ frameStartJson := by
    rintro rfl
    exact absurd htag (by decide)
  cases h with
  | json digits payload hdigits hall hlen =>
      have htake : ((frameStartJson :: (digits ++ f)).drop 1).take 7 = digits := by
        rw [List.drop_succ_cons, List.drop_zero, List.take_append_of_le_length hdigits.ge,
          List.take_of_length_le hdigits.le]
      have hdrop : (frameStartJson :: (digits ++ f)).drop 8 = f := by
        rw [List.drop_succ_cons, List.drop_append, List.drop_of_length_le hdigits.le, hdigits]
        rfl
      have hsize : (frameStartJson :: (digits ++ f)).length = 8 + f.length := by
        rw [List.length_cons, List.length_append, hdigits]
        omega
      rw [header, if_pos rfl, jsonHeader]
      simp only [htake, hdrop, hlen, hsize]
      rw [if_neg (by omega), if_pos (List.all_eq_true.2 hall), if_neg (by omega), List.take_length]
  | short tag content htag hlen =>
      have hl := toNat_ofNat_length (show content.length < 256 by omega)
      have hsize : (tag :: BitVec.ofNat 8 content.length :: content).length =
          2 + content.length := by
        simp only [List.length_cons]
        omega
      rw [header, if_neg (hnotjson htag), if_pos htag, roseHeader]
      simp only [List.drop_succ_cons, List.drop_zero, hl]
      rw [if_pos hlen, if_neg (by omega), List.take_of_length_le hsize.le, hsize]
  | long tag lengthOctets content htag hpos hfour hlen hlt =>
      have hl := toNat_ofNat_length (show 128 + lengthOctets.length < 256 by omega)
      have hsize : (tag :: BitVec.ofNat 8 (128 + lengthOctets.length) ::
          (lengthOctets ++ content)).length = 2 + lengthOctets.length + content.length := by
        simp only [List.length_cons, List.length_append]
        omega
      rw [header, if_neg (hnotjson htag), if_pos htag, roseHeader]
      simp only [List.drop_succ_cons, List.drop_zero, hl, Nat.add_sub_cancel_left,
        List.take_left, hlen]
      rw [if_neg (by omega), if_neg (by omega), if_neg (by simp), if_neg (by omega),
        if_neg (by omega), List.take_of_length_le hsize.le, hsize]

/-- As long as a frame is not complete, nothing is decided. -/
theorem header_of_beginning {wire part : List Octet} {f : Frame} (h : WellFormed wire f)
    (hpart : part <+: wire) (hne : part ≠ wire) : header part = .wait := by
  obtain ⟨tail, rfl⟩ := hpart
  by_contra hwait
  have hsize := (size_of_frame ((header_append hwait tail).symm.trans (header_of_wellFormed h))).2
  rw [List.length_append] at hsize
  refine hne ?_
  rw [List.eq_nil_of_length_eq_zero (show tail.length = 0 by omega), List.append_nil]

theorem reading_of_frames (frames : List (List Octet × Frame))
    (h : ∀ x ∈ frames, WellFormed x.1 x.2) {part : List Octet} (hpart : header part = .wait) :
    Clean ((frames.map Prod.fst).flatten ++ part) ∧
      framesOf ((frames.map Prod.fst).flatten ++ part) = frames.map Prod.snd ∧
      tcpFramer.residual ((frames.map Prod.fst).flatten ++ part) = part := by
  induction frames with
  | nil =>
      exact ⟨.wait hpart, framesOf_wait hpart, Framer.residual_of_wait (front_eq hpart)⟩
  | cons x frames ih =>
      obtain ⟨hclean, hframes, hresidual⟩ := ih fun y hy => h y (List.mem_cons_of_mem x hy)
      have hx := header_of_wellFormed (h x List.mem_cons_self)
      have hfront : tcpFramer.front x.1 = .frame x.2 x.1.length := front_eq hx
      rw [List.map_cons, List.flatten_cons, List.append_assoc, List.map_cons]
      refine ⟨.frame (header_of_append hx (by simp)) ?_, ?_, ?_⟩
      · rwa [List.drop_left]
      · rw [framesOf, Framer.frames_cons hfront]
        exact congrArg _ hframes
      · rw [Framer.residual_cons hfront, hresidual]

/-- However a stream of frames is cut, the frames are returned in order, and the buffer holds
what has arrived of the next one. -/
theorem handleFraming_chunks (frames : List (List Octet × Frame))
    (hframes : ∀ x ∈ frames, WellFormed x.1 x.2) {next part : List Octet} {f : Frame}
    (hnext : WellFormed next f) (hpart : part <+: next) (hne : part ≠ next)
    (chunks : List (List Octet))
    (hchunks : chunks.flatten = (frames.map Prod.fst).flatten ++ part) :
    Receives [] chunks (frames.map Prod.snd) part ∧
      ∀ frames' pending, Receives [] chunks frames' pending →
        frames' = frames.map Prod.snd ∧ pending = part := by
  obtain ⟨hclean, hread, hresidual⟩ :=
    reading_of_frames frames hframes (header_of_beginning hnext hpart hne)
  have hreceives := @receives_of_clean chunks [] rfl (by rwa [List.nil_append, hchunks])
  rw [List.nil_append, hchunks, hread, hresidual] at hreceives
  exact ⟨hreceives, fun _ _ h => receives_unique h hreceives⟩

/-- Two frames and the first octets of a third, cut inside their headers. -/
theorem handleFraming_chunks_split :
    Receives [] [[0xA1#8], [0x81#8, 0x01#8, 0x05#8, 0x4A#8, 0x30#8], List.replicate 6 0x30#8 ++
        [0xA2#8], [0x84#8, 0x00#8]]
      [[0xA1#8, 0x81#8, 0x01#8, 0x05#8], []] [0xA2#8, 0x84#8, 0x00#8] :=
  (handleFraming_chunks
    [([0xA1#8, 0x81#8, 0x01#8, 0x05#8], [0xA1#8, 0x81#8, 0x01#8, 0x05#8]),
      (0x4A#8 :: List.replicate 7 0x30#8, [])]
    (by
      intro x hx
      rw [List.mem_cons, List.mem_singleton] at hx
      rcases hx with rfl | rfl
      · exact .long 0xA1#8 [0x01#8] [0x05#8] (by decide) (by decide) (by decide) (by decide)
          (by decide)
      · exact .json (List.replicate 7 0x30#8) [] (by decide) (by decide) (by decide))
    (.long 0xA2#8 [0x00#8, 0x00#8, 0x00#8, 0x00#8] [] (by decide) (by decide) (by decide)
      (by decide) (by decide)) (by decide) (by decide) _ (by decide)).1

end Esnacc.Ts
