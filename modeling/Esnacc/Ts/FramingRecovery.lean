import Esnacc.Ts.FramingLoop

/-!
When `handleFraming` finds the frames of a stream among anything else, however the stream is
cut into chunks.
-/

namespace Esnacc.Ts

open BitString

/-! ### Calls -/

theorem framingLoop_mono {fuel fuel' : ℕ} (hle : fuel ≤ fuel') {b : List Octet}
    {acc : List Frame} {o : Outcome} (h : framingLoop fuel b acc = some o) :
    framingLoop fuel' b acc = some o := by
  induction fuel generalizing fuel' b acc with
  | zero => cases h
  | succ fuel ih =>
      cases fuel' with
      | zero => omega
      | succ fuel' =>
          cases b with
          | nil => exact h
          | cons first rest =>
              simp only [framingLoop] at h ⊢
              by_cases hjson : first = frameStartJson
              · rw [if_pos hjson] at h ⊢
                rcases hq : tryConsumeJsonFrame (first :: rest) with ⟨_ | frame, pending⟩
                · simpa [hq] using h
                · simp only [hq] at h ⊢
                  exact ih (by omega) h
              · rw [if_neg hjson] at h ⊢
                by_cases hrose : isRoseTag first = true
                · rw [if_pos hrose] at h ⊢
                  rcases hq : tryConsumeBerFrame (first :: rest) with e | ⟨_ | frame, pending⟩
                  · simpa [hq] using h
                  · simpa [hq] using h
                  · simp only [hq] at h ⊢
                    exact ih (by omega) h
                · rw [if_neg hrose] at h ⊢
                  exact ih (by omega) h

theorem calls_unique {pending data : List Octet} {o o' : Outcome} (h : Calls pending data o)
    (h' : Calls pending data o') : o = o' := by
  obtain ⟨n, hn⟩ := h
  obtain ⟨n', hn'⟩ := h'
  exact Option.some.inj <| (framingLoop_mono (le_max_left n n') hn).symm.trans
    (framingLoop_mono (le_max_right n n') hn')

theorem receives_unique {pending : List Octet} {chunks : List (List Octet)}
    {frames frames' : List Frame} {p p' : List Octet} (h : Receives pending chunks frames p)
    (h' : Receives pending chunks frames' p') : frames = frames' ∧ p = p' := by
  induction h generalizing frames' p' with
  | nil =>
      cases h'
      exact ⟨rfl, rfl⟩
  | cons hcall _ ih =>
      cases h' with
      | cons hcall' hrest' =>
          cases calls_unique hcall hcall'
          obtain ⟨rfl, rfl⟩ := ih hrest'
          exact ⟨rfl, rfl⟩

/-! ### Streams that are read to the end -/

/-- The frames that a stream holds. -/
def framesOf (s : List Octet) : List Frame := tcpFramer.frames s

/-- Behind a malformed header: no call of `handleFraming` takes a frame out of this or goes
round for ever. -/
inductive Harmless : List Octet → Prop
  | wait {b : List Octet} (h : header b = .wait) : Harmless b
  | junk {b : List Octet} (h : header b = .junk) (hrest : Harmless b.tail) : Harmless b
  | badDigits {b : List Octet} (h : header b = .badDigits) (hrest : Harmless b.tail) : Harmless b
  | laxDigits {b : List Octet} {n : ℕ} (h : header b = .laxDigits n) (hshort : b.length < 8 + n) :
      Harmless b
  | badForm {b : List Octet} (h : header b = .badForm) : Harmless b

/-- What a malformed header does to the rest of a stream does not matter, as there are no
frames in it; `seen` says that there have been frames before. -/
inductive Recovers : Bool → List Octet → Prop
  | wait {seen : Bool} {b : List Octet} (h : header b = .wait) : Recovers seen b
  | frame {seen : Bool} {b : List Octet} {f : Frame} {n : ℕ} (h : header b = .frame f n)
      (hrest : Recovers true (b.drop n)) : Recovers seen b
  | junk {seen : Bool} {b : List Octet} (h : header b = .junk) (hrest : Recovers seen b.tail) :
      Recovers seen b
  | badDigits {seen : Bool} {b : List Octet} (h : header b = .badDigits)
      (hnone : framesOf b.tail = []) (hrest : Harmless b.tail) : Recovers seen b
  | laxDigits {seen : Bool} {b : List Octet} {n : ℕ} (h : header b = .laxDigits n)
      (hnone : framesOf b.tail = []) (hshort : b.length < 8 + n) : Recovers seen b
  | badForm {b : List Octet} (h : header b = .badForm) (hnone : framesOf b.tail = []) :
      Recovers false b

theorem front_eq {b : List Octet} {h : Header} (hb : header b = h) :
    tcpFramer.front b = h.front := congrArg Header.front hb

theorem framesOf_append_eq_nil {b t : List Octet} (h : framesOf (b ++ t) = []) :
    framesOf b = [] := by
  rw [framesOf, Framer.frames_append, List.append_eq_nil_iff] at h
  exact h.1

theorem framesOf_frame {b : List Octet} {f : Frame} {n : ℕ} (h : header b = .frame f n) :
    framesOf b = f :: framesOf (b.drop n) := Framer.frames_of_frame (front_eq h)

theorem framesOf_wait {b : List Octet} (h : header b = .wait) : framesOf b = [] :=
  Framer.frames_of_wait (front_eq h)

/-- Every octet that starts no frame is skipped. -/
theorem framesOf_skip {b : List Octet} (h : (header b).front = .skip) :
    framesOf b = framesOf b.tail := Framer.frames_of_skip h

theorem ne_nil_of_header {b : List Octet} (h : header b ≠ .wait) : b ≠ [] := by
  rintro rfl
  exact h rfl

theorem header_of_append {b t : List Octet} {h : Header} (hb : header b = h) (hw : h ≠ .wait) :
    header (b ++ t) = h := by
  rw [header_append (by rw [hb]; exact hw), hb]

theorem tail_append_of_header {b : List Octet} (h : header b ≠ .wait) (t : List Octet) :
    (b ++ t).tail = b.tail ++ t := List.tail_append_of_ne_nil (ne_nil_of_header h)

/-- What holds of a stream that is recovered, by what it starts with. -/
theorem Recovers.inv {seen : Bool} {b : List Octet} (h : Recovers seen b) :
    match header b with
    | .wait => True
    | .frame _ n => Recovers true (b.drop n)
    | .junk => Recovers seen b.tail
    | .badDigits => framesOf b.tail = [] ∧ Harmless b.tail
    | .laxDigits n => framesOf b.tail = [] ∧ b.length < 8 + n
    | .badForm => seen = false ∧ framesOf b.tail = []
    | .overlong => False := by
  cases h with
  | wait h => simp [h]
  | frame h hrest => simpa [h] using hrest
  | junk h hrest => simpa [h] using hrest
  | badDigits h hnone hrest => simpa [h] using ⟨hnone, hrest⟩
  | laxDigits h hnone hshort => simpa [h] using ⟨hnone, hshort⟩
  | badForm h hnone => simpa [h] using hnone

theorem Harmless.inv {b : List Octet} (h : Harmless b) :
    match header b with
    | .wait | .badForm => True
    | .junk | .badDigits => Harmless b.tail
    | .laxDigits n => b.length < 8 + n
    | .frame _ _ | .overlong => False := by
  cases h with
  | wait h => simp [h]
  | junk h hrest => simpa [h] using hrest
  | badDigits h hrest => simpa [h] using hrest
  | laxDigits h hshort => simpa [h] using hshort
  | badForm h => simp [h]

/-- Induction along the reading of a stream, by headers. -/
theorem header_induction {P : List Octet → Prop} (b : List Octet)
    (wait : ∀ b, header b = .wait → P b)
    (frame : ∀ b f n, header b = .frame f n → P (b.drop n) → P b)
    (skip : ∀ b, (header b).front = .skip → P b.tail → P b) : P b := by
  induction b using Framer.reading_induction (F := tcpFramer) with
  | wait b hfront =>
      refine wait b ?_
      cases hb : header b <;> rw [front_eq hb] at hfront <;> first | rfl | cases hfront
  | frame b f n hfront ih =>
      refine frame b f n ?_ ih
      cases hb : header b <;> rw [front_eq hb] at hfront <;> cases hfront
      rfl
  | skip b hfront ih => exact skip b hfront ih

/-- A call on a stream that has met no malformed header. -/
theorem call_of_recovers {seen : Bool} {b rest : List Octet} (acc : List Frame)
    (h : Recovers seen (b ++ rest)) (hacc : acc ≠ [] → seen = true) :
    ∃ fuel o new, framingLoop fuel b acc = some o ∧ o.frames = acc ++ new ∧
      (∀ x, framesOf (b ++ x) = new ++ framesOf (o.2 ++ x)) ∧ framesOf o.2 = [] ∧
      ((∃ seen', Recovers seen' (o.2 ++ rest)) ∨
        framesOf (o.2 ++ rest) = [] ∧ Harmless (o.2 ++ rest)) := by
  induction b using header_induction generalizing seen acc with
  | wait b hb =>
      refine ⟨1, (.ok acc, b), [], ?_, (List.append_nil acc).symm, fun x => rfl,
        framesOf_wait hb, .inl ⟨seen, h⟩⟩
      rw [framingLoop_succ 0 (by rw [hb]; simp), hb]
  | frame b f n hb ih =>
      have hsize := size_of_frame hb
      have hinv := h.inv
      rw [header_of_append hb (by simp)] at hinv
      dsimp only at hinv
      rw [List.drop_append_of_le_length hsize.2] at hinv
      obtain ⟨fuel, o, new, hloop, hframes, hread, hnone, hnext⟩ :=
        ih (acc ++ [f]) hinv fun _ => rfl
      refine ⟨fuel + 1, o, f :: new, ?_, by rw [hframes]; simp, fun x => ?_, hnone, hnext⟩
      · rw [framingLoop_succ fuel (by rw [hb]; simp), hb]
        exact hloop
      · rw [framesOf_frame (header_of_append hb (by simp)),
          List.drop_append_of_le_length hsize.2, hread, List.cons_append]
  | skip b hfront ih =>
      have hne : header b ≠ .wait := by
        intro hb
        rw [hb] at hfront
        cases hfront
      have hskip (x : List Octet) : framesOf (b ++ x) = framesOf (b.tail ++ x) := by
        rw [framesOf_skip (by rw [header_append hne]; exact hfront), tail_append_of_header hne]
      have hinv := h.inv
      rw [header_append hne, tail_append_of_header hne] at hinv
      cases hb : header b with
      | wait => exact absurd hb hne
      | frame f n => rw [hb] at hfront; cases hfront
      | junk =>
          rw [hb] at hinv
          obtain ⟨fuel, o, new, hloop, hframes, hread, hnone, hnext⟩ := ih acc hinv hacc
          refine ⟨fuel + 1, o, new, ?_, hframes, fun x => ?_, hnone, hnext⟩
          · rw [framingLoop_succ fuel (by rw [hb]; simp), hb]
            exact hloop
          · rw [hskip, hread]
      | badDigits =>
          rw [hb] at hinv
          refine ⟨1, (.ok acc, b.tail), [], ?_, (List.append_nil acc).symm, hskip,
            framesOf_append_eq_nil hinv.1, .inr hinv⟩
          rw [framingLoop_succ 0 (by rw [hb]; simp), hb]
      | laxDigits n =>
          rw [hb] at hinv
          have hshort : b.length < 8 + n := by
            have hlt := hinv.2
            rw [List.length_append] at hlt
            omega
          have hnone : framesOf (b ++ rest) = [] := by rw [hskip, hinv.1]
          refine ⟨1, (.ok acc, b), [], ?_, (List.append_nil acc).symm, fun x => rfl,
            framesOf_append_eq_nil hnone, .inr ⟨hnone, ?_⟩⟩
          · rw [framingLoop_succ 0 (by rw [hb]; simp), hb]
            exact if_pos hshort
          · exact .laxDigits (header_of_append hb (by simp)) hinv.2
      | badForm =>
          rw [hb] at hinv
          have hnone : framesOf (b ++ rest) = [] := by rw [hskip, hinv.2]
          have hnil : acc = [] := by
            by_contra hacc'
            rw [hacc hacc'] at hinv
            cases hinv.1
          refine ⟨1, (.error ⟨(b.drop 1).headD 0⟩, b), [], ?_, by rw [hnil]; rfl, fun x => rfl,
            framesOf_append_eq_nil hnone, .inr ⟨hnone, ?_⟩⟩
          · rw [framingLoop_succ 0 (by rw [hb]; simp), hb]
          · exact .badForm (header_of_append hb (by simp))
      | overlong =>
          rw [hb] at hinv
          exact absurd hinv not_false

/-- A call behind a malformed header. -/
theorem call_of_harmless {b rest : List Octet} (hnone : framesOf (b ++ rest) = [])
    (h : Harmless (b ++ rest)) :
    ∃ fuel o, framingLoop fuel b [] = some o ∧ o.frames = [] ∧
      (∀ x, framesOf (b ++ x) = framesOf (o.2 ++ x)) ∧
      framesOf (o.2 ++ rest) = [] ∧ Harmless (o.2 ++ rest) := by
  induction b using header_induction with
  | wait b hb =>
      refine ⟨1, (.ok [], b), ?_, rfl, fun x => rfl, hnone, h⟩
      rw [framingLoop_succ 0 (by rw [hb]; simp), hb]
  | frame b f n hb ih =>
      rw [framesOf_frame (header_of_append hb (by simp))] at hnone
      cases hnone
  | skip b hfront ih =>
      have hne : header b ≠ .wait := by
        intro hb
        rw [hb] at hfront
        cases hfront
      have hskip (x : List Octet) : framesOf (b ++ x) = framesOf (b.tail ++ x) := by
        rw [framesOf_skip (by rw [header_append hne]; exact hfront), tail_append_of_header hne]
      have hinv := h.inv
      rw [header_append hne, tail_append_of_header hne] at hinv
      rw [hskip] at hnone
      cases hb : header b with
      | wait => exact absurd hb hne
      | frame f n => rw [hb] at hfront; cases hfront
      | junk =>
          rw [hb] at hinv
          obtain ⟨fuel, o, hloop, hframes, hread, hnone', hharmless⟩ := ih hnone hinv
          refine ⟨fuel + 1, o, ?_, hframes, fun x => ?_, hnone', hharmless⟩
          · rw [framingLoop_succ fuel (by rw [hb]; simp), hb]
            exact hloop
          · rw [hskip, hread]
      | badDigits =>
          rw [hb] at hinv
          refine ⟨1, (.ok [], b.tail), ?_, rfl, hskip, hnone, hinv⟩
          rw [framingLoop_succ 0 (by rw [hb]; simp), hb]
      | laxDigits n =>
          rw [hb] at hinv
          have hshort : b.length < 8 + n := by
            have hlt := hinv
            rw [List.length_append] at hlt
            omega
          refine ⟨1, (.ok [], b), ?_, rfl, fun x => rfl, by rw [hskip, hnone], h⟩
          rw [framingLoop_succ 0 (by rw [hb]; simp), hb]
          exact if_pos hshort
      | badForm =>
          refine ⟨1, (.error ⟨(b.drop 1).headD 0⟩, b), ?_, rfl, fun x => rfl,
            by rw [hskip, hnone], h⟩
          rw [framingLoop_succ 0 (by rw [hb]; simp), hb]
      | overlong =>
          rw [hb] at hinv
          exact absurd hinv not_false

/-! ### Runs -/

theorem receives_of_harmless (chunks : List (List Octet)) {pending tail : List Octet}
    (hnone : framesOf (pending ++ (chunks.flatten ++ tail)) = [])
    (h : Harmless (pending ++ (chunks.flatten ++ tail))) :
    ∃ pending', Receives pending chunks [] pending' := by
  induction chunks generalizing pending with
  | nil => exact ⟨pending, .nil pending⟩
  | cons data chunks ih =>
      rw [List.flatten_cons, List.append_assoc, ← List.append_assoc] at hnone h
      obtain ⟨fuel, o, hloop, hframes, -, hnone', hharmless⟩ := call_of_harmless hnone h
      obtain ⟨pending', hrest⟩ := ih hnone' hharmless
      refine ⟨pending', ?_⟩
      have hcons := Receives.cons ⟨fuel, hloop⟩ hrest
      rwa [hframes] at hcons

/-- Every call returns, and the frames so far are those of what has arrived so far. -/
theorem receives_of_recovers (chunks : List (List Octet)) {seen : Bool} {pending tail : List Octet}
    (hpending : framesOf pending = [])
    (h : Recovers seen (pending ++ (chunks.flatten ++ tail))) :
    ∃ pending', Receives pending chunks (framesOf (pending ++ chunks.flatten)) pending' := by
  induction chunks generalizing seen pending with
  | nil =>
      rw [List.flatten_nil, List.append_nil, hpending]
      exact ⟨pending, .nil pending⟩
  | cons data chunks ih =>
      rw [List.flatten_cons, List.append_assoc, ← List.append_assoc] at h
      obtain ⟨fuel, o, new, hloop, hframes, hread, hnone, hnext⟩ :=
        call_of_recovers [] h fun hne => absurd rfl hne
      rw [List.flatten_cons, ← List.append_assoc, hread]
      have hcall : Calls pending data o := ⟨fuel, hloop⟩
      rw [List.nil_append] at hframes
      rcases hnext with ⟨seen', hnext⟩ | ⟨hnone', hharmless⟩
      · obtain ⟨pending', hrest⟩ := ih hnone hnext
        refine ⟨pending', ?_⟩
        rw [← hframes]
        exact .cons hcall hrest
      · obtain ⟨pending', hrest⟩ := receives_of_harmless chunks hnone' hharmless
        refine ⟨pending', ?_⟩
        rw [← List.append_assoc] at hnone'
        rw [framesOf_append_eq_nil hnone', ← hframes]
        exact .cons hcall hrest

/-! ### Frames are pieces of the stream -/

theorem infix_of_jsonHeader {b : List Octet} {f : Frame} {n : ℕ}
    (h : jsonHeader b = .frame f n) : f <:+: b := by
  simp only [jsonHeader] at h
  split at h
  · cases h
  · split at h
    · split at h
      · cases h
      · cases h
        exact (List.take_prefix _ _).isInfix.trans (List.drop_suffix _ _).isInfix
    · split at h
      · cases h
      · split at h <;> cases h

theorem infix_of_roseHeader {b : List Octet} {f : Frame} {n : ℕ}
    (h : roseHeader b = .frame f n) : f <:+: b := by
  have hframe {p : Prop} [Decidable p] {k : ℕ}
      (heq : (if p then Header.wait else .frame (b.take k) k) = .frame f n) : f <:+: b := by
    split at heq
    · cases heq
    · cases heq
      exact (List.take_prefix _ _).isInfix
  rw [roseHeader] at h
  split at h
  · cases h
  · next l rest _ =>
      by_cases hshort : l.toNat < 128
      · rw [if_pos hshort] at h
        exact hframe h
      · rw [if_neg hshort] at h
        dsimp only at h
        by_cases hform : l.toNat - 128 = 0 ∨ 4 < l.toNat - 128
        · rw [if_pos hform] at h
          cases h
        · rw [if_neg hform] at h
          by_cases hmore : rest.length < l.toNat - 128
          · rw [if_pos hmore] at h
            cases h
          · rw [if_neg hmore] at h
            by_cases hover : 2 ^ 31 ≤ natOfOctets (rest.take (l.toNat - 128))
            · rw [if_pos hover] at h
              cases h
            · rw [if_neg hover] at h
              exact hframe h

theorem infix_of_header {b : List Octet} {f : Frame} {n : ℕ} (h : header b = .frame f n) :
    f <:+: b := by
  cases b with
  | nil => cases h
  | cons first rest =>
      rw [header] at h
      split at h
      · exact infix_of_jsonHeader h
      · split at h
        · exact infix_of_roseHeader h
        · cases h

theorem infix_of_mem_framesOf (b : List Octet) : ∀ f ∈ framesOf b, f <:+: b := by
  induction b using header_induction with
  | wait b hb => simp [framesOf_wait hb]
  | frame b f n hb ih =>
      intro g hg
      rw [framesOf_frame hb, List.mem_cons] at hg
      rcases hg with rfl | hg
      · exact infix_of_header hb
      · exact (ih g hg).trans (List.drop_suffix _ _).isInfix
  | skip b hfront ih =>
      intro g hg
      rw [framesOf_skip hfront] at hg
      exact (ih g hg).trans (List.tail_suffix _).isInfix

/-! ### Garbage -/

/-- What a receiver promises for a stream, whatever the chunks are in which it arrives. A
prefix of the stream is what has arrived after some of the calls. -/
structure SurvivesGarbage (s : List Octet) : Prop where
  terminates : ∀ chunks : List (List Octet), chunks.flatten <+: s →
    ∃ frames pending, Receives [] chunks frames pending
  pieces : ∀ (chunks : List (List Octet)) frames pending, chunks.flatten <+: s →
    Receives [] chunks frames pending → ∀ f ∈ frames, f <:+: chunks.flatten
  independent : ∀ (chunks chunks' : List (List Octet)) frames frames' pending pending',
    chunks.flatten <+: s → chunks'.flatten = chunks.flatten →
    Receives [] chunks frames pending → Receives [] chunks' frames' pending' → frames = frames'
  delivered : ∀ (chunks : List (List Octet)) frames pending, chunks.flatten <+: s →
    Receives [] chunks frames pending → (framesOf chunks.flatten).Sublist frames

/-- A stream is received as promised when no length of 2^31 or more, no length of seven other
characters that is complete, and no frame follows the first header that is malformed. -/
theorem survivesGarbage_of_recovers {s : List Octet} (h : Recovers false s) :
    SurvivesGarbage s := by
  have hrun (chunks : List (List Octet)) (hbegins : chunks.flatten <+: s) :
      ∃ pending, Receives [] chunks (framesOf chunks.flatten) pending := by
    obtain ⟨tail, rfl⟩ := hbegins
    exact @receives_of_recovers chunks false [] tail (framesOf_wait rfl) h
  have hframes (chunks : List (List Octet)) frames pending (hbegins : chunks.flatten <+: s)
      (hreceives : Receives [] chunks frames pending) : frames = framesOf chunks.flatten := by
    obtain ⟨pending', hreceives'⟩ := hrun chunks hbegins
    exact (receives_unique hreceives hreceives').1
  constructor
  case terminates =>
    intro chunks hbegins
    exact ⟨framesOf chunks.flatten, hrun chunks hbegins⟩
  case pieces =>
    intro chunks frames pending hbegins hreceives
    rw [hframes chunks frames pending hbegins hreceives]
    exact infix_of_mem_framesOf _
  case independent =>
    intro chunks chunks' frames frames' pending pending' hbegins hsame hreceives hreceives'
    rw [hframes chunks frames pending hbegins hreceives,
      hframes chunks' frames' pending' (hsame ▸ hbegins) hreceives', hsame]
  case delivered =>
    intro chunks frames pending hbegins hreceives
    rw [hframes chunks frames pending hbegins hreceives]

theorem survivesGarbage_of_recovers_letters :
    SurvivesGarbage ([0x00#8, 0xA1#8, 0x00#8, frameStartJson] ++ List.replicate 7 0x78#8) := by
  have hframe : header ([0xA1#8, 0x00#8, frameStartJson] ++ List.replicate 7 0x78#8) =
      .frame [0xA1#8, 0x00#8] 2 := by
    decide
  have hdigits : header (frameStartJson :: List.replicate 7 0x78#8) = .badDigits := by
    decide
  refine survivesGarbage_of_recovers (.junk (by decide) (.frame hframe (.badDigits hdigits ?_ ?_)))
  · change framesOf [0x78#8, 0x78#8, 0x78#8, 0x78#8, 0x78#8, 0x78#8, 0x78#8] = []
    simp only [framesOf_skip (show (header (0x78#8 :: _)).front = .skip from rfl), List.tail_cons]
    exact framesOf_wait rfl
  · exact .junk (by decide) <| .junk (by decide) <| .junk (by decide) <| .junk (by decide) <|
      .junk (by decide) <| .junk (by decide) <| .junk (by decide) <| .wait (by decide)

/-- `J`, seven letters and a frame. -/
def stalledStream : List Octet :=
  frameStartJson :: List.replicate 7 0x78#8 ++ [0xA1#8, 0x00#8]

/-- The frame behind the letters stays in the buffer; behind a length of 2^31 the loop does not
end. -/
theorem garbage_stalls :
    Receives [] [stalledStream] [] stalledStream.tail ∧
      framesOf stalledStream = [[0xA1#8, 0x00#8]] ∧ ¬SurvivesGarbage stalledStream ∧
      ∀ fuel, handleFraming fuel [] [0xA1#8, 0x84#8, 0x80#8, 0x00#8, 0x00#8, 0x00#8] = none := by
  have hreceives : Receives [] [stalledStream] [] stalledStream.tail :=
    .cons (o := (.ok [], stalledStream.tail)) ⟨1, by decide⟩ (.nil _)
  have hframes : framesOf stalledStream = [[0xA1#8, 0x00#8]] := by
    change framesOf [0x4A#8, 0x78#8, 0x78#8, 0x78#8, 0x78#8, 0x78#8, 0x78#8, 0x78#8, 0xA1#8,
      0x00#8] = _
    rw [framesOf_skip (by decide), List.tail_cons]
    simp only [framesOf_skip (show (header (0x78#8 :: _)).front = .skip from rfl), List.tail_cons]
    rw [framesOf_frame (show header [0xA1#8, 0x00#8] = .frame [0xA1#8, 0x00#8] 2 by decide)]
    simp only [List.drop_succ_cons, List.drop_nil]
    rw [framesOf_wait rfl]
  refine ⟨hreceives, hframes, ?_, ?_⟩
  · intro h
    have hsub := h.delivered [stalledStream] [] _ (by simp) hreceives
    rw [List.flatten_singleton, hframes] at hsub
    cases hsub
  · have hloop (fuel : ℕ) (acc : List Frame) :
        framingLoop fuel [0xA1#8, 0x84#8, 0x80#8, 0x00#8, 0x00#8, 0x00#8] acc = none := by
      induction fuel generalizing acc with
      | zero => rfl
      | succ fuel ih =>
          rw [framingLoop, if_neg (by decide), if_pos (by decide),
            show tryConsumeBerFrame [0xA1#8, 0x84#8, 0x80#8, 0x00#8, 0x00#8, 0x00#8] =
              .ok (some [], [0xA1#8, 0x84#8, 0x80#8, 0x00#8, 0x00#8, 0x00#8]) by decide]
          exact ih _
    exact fun fuel => hloop fuel []

end Esnacc.Ts
