import Esnacc.Compiler.CommentLayout

/-!
Runs through types: what a list of members does to the element of its type, whatever is below it on
the stack.
-/

namespace Esnacc.Compiler.CommentParser

variable {cfg : Config}

theorem processLines_append (stack : List Element) (xs ys : List Text) :
    processLines cfg stack (xs ++ ys) = processLines cfg (processLines cfg stack xs) ys :=
  List.foldl_append

theorem processLines_cons (stack : List Element) (raw : Text) (ys : List Text) :
    processLines cfg stack (raw :: ys) = processLines cfg (processLine cfg stack raw) ys := rfl

theorem processLine_of_stay {el el' : Element} {raw : Text} (below : List Element)
    (h : el.processLine cfg raw = .stay el') :
    processLine cfg (el :: below) raw = el' :: below := by
  rw [processLine]
  simp only [h]

theorem processLine_of_push {el el' top : Element} {raw : Text} (below : List Element)
    (h : el.processLine cfg raw = .push el' top) :
    processLine cfg (el :: below) raw = top :: el' :: below := by
  rw [processLine]
  simp only [h]

theorem processLine_of_done {el el' : Element} {filtered : Bool} {raw : Text} (below : Element)
    (stack : List Element) (h : el.processLine cfg raw = .done el' filtered) :
    processLine cfg (el :: below :: stack) raw =
      hand cfg el' filtered below stack.isEmpty :: stack := by
  rw [processLine]
  simp only [h]

/-- What the element below becomes when one that is no module ends. -/
def Element.receive (below : Element) (filtered : Bool) (lines : List Text) : Element :=
  if filtered then below.drop
  else { below with filtered := below.filtered ++ below.increment ++ lines, increment := [] }

theorem hand_eq {el : Element} (h : el.isFilteredModule cfg = false) (filtered : Bool)
    (below : Element) (bottom : Bool) :
    hand cfg el filtered below bottom = below.receive filtered el.filtered := by
  rw [hand, h, Bool.and_false]
  cases filtered with
  | true => rfl
  | false => rfl

theorem others_eq_nil {lead : List Text} (h : ∀ raw ∈ lead, isCommentLine raw = true) :
    others lead = [] :=
  List.filter_eq_nil_iff.mpr fun raw hraw => by simp [h raw hraw]

/-- What becomes of lines in front and of a line, when nothing is lost. -/
theorem keptLines_of_alone {filtered waiting : Bool} {lead : List Text} (own : List Text)
    (h : Alone filtered waiting lead) :
    keptLines filtered lead own = if filtered then [] else lead ++ own := by
  rw [keptLines]
  cases filtered with
  | true => exact others_eq_nil (h rfl).2
  | false => rfl

/-- Lines on which an element only reads: they wait with the others, and their comments are
collected in its way. -/
theorem run_stay {kind : Kind} {next : List Text → Text → List Text} {inc acc coll : List Text}
    (below : List Element) {lines : List Text}
    (h : ∀ inc coll, ∀ raw ∈ lines, (Element.mk kind inc acc coll).processLine cfg raw =
      .stay ⟨kind, inc ++ [raw], acc, next coll raw⟩) :
    processLines cfg (⟨kind, inc, acc, coll⟩ :: below) lines =
      ⟨kind, inc ++ lines, acc, lines.foldl next coll⟩ :: below := by
  induction lines generalizing inc coll with
  | nil => rw [List.append_nil]; rfl
  | cons raw lines ih =>
      have hrest := @ih (inc ++ [raw]) (next coll raw) fun inc coll r hr =>
        h inc coll r (List.mem_cons_of_mem raw hr)
      rw [processLines_cons, processLine_of_stay below (h inc coll raw List.mem_cons_self), hrest,
        List.append_assoc]
      rfl

/-! ### Lines of a type -/

section Sequence

variable {c modComment : Comment} {inc acc coll : List Text}

theorem run_quiet (below : List Element) {lead : List Text} (h : ∀ raw ∈ lead, IsQuiet raw) :
    processLines cfg (⟨.sequence c modComment true, inc, acc, coll⟩ :: below) lead =
      ⟨.sequence c modComment true, inc ++ lead, acc, collectAll coll lead⟩ :: below := by
  rw [collectAll, List.foldl_filter]
  refine run_stay below fun inc coll raw hraw => ?_
  by_cases hempty : szLine raw = []
  · simp [Element.processLine, sequenceLine, hempty, Element.read, Element.collect]
  · obtain ⟨hlower, hbracket⟩ := (h raw hraw).resolve_left hempty
    simp [Element.processLine, sequenceLine, hempty, hlower, closeLine, hbracket, Element.read]

/-- The element once a member is decided on. -/
def decided (c modComment : Comment) (filtered : Bool) (inc acc : List Text) : Element :=
  ⟨.sequence c modComment true, [], if filtered then acc else acc ++ inc, []⟩

theorem szLine_ne_nil {raw : Text} (h : startsLower (token raw 0) = true) : szLine raw ≠ [] := by
  intro hempty
  rw [token, tokens, hempty] at h
  exact absurd h (by decide)

theorem judged_eq (filtered : Bool) (coll : List Text) :
    ((Element.mk (.sequence c modComment true) inc acc coll).judge filtered).forget =
      decided c modComment filtered inc acc := by
  cases filtered with
  | true => rfl
  | false => rfl

/-- A line with a member on which the type goes on or ends. -/
theorem processLine_member {raw : Text} (hlower : startsLower (token raw 0) = true)
    (hsequenceOf : isSequenceOf (token raw 1) (token raw 2) = false)
    (hopens : opensType (token raw 1) (token raw 2) = false) :
    (Element.mk (.sequence c modComment true) inc acc coll).processLine cfg raw =
      closeLine cfg c (decided c modComment
        (dropsMember cfg (collect coll (szComment raw))) (inc ++ [raw]) acc) raw := by
  have hne := szLine_ne_nil hlower
  simp only [Element.processLine, sequenceLine, Bool.not_true, Bool.false_eq_true, if_false,
    if_neg hne, if_pos hlower, memberLine, hsequenceOf, hopens]
  rw [Element.read, Element.collect, judged_eq]

/-- A line that begins an inline type. -/
theorem processLine_inline {raw : Text} (hlower : startsLower (token raw 0) = true)
    (hopens : opensType (token raw 1) (token raw 2) = true) :
    (Element.mk (.sequence c modComment true) inc acc coll).processLine cfg raw =
      .push (decided c modComment
          (dropsMember cfg (collect coll (szComment raw))) (inc ++ [raw]) acc)
        (.new (.sequence (convertCommentList cfg (collect coll (szComment raw)) modComment)
          modComment (token raw 2 = ['\x7b']))) := by
  have hne := szLine_ne_nil hlower
  have hsequenceOf : isSequenceOf (token raw 1) (token raw 2) = false := by
    rw [Bool.eq_false_iff]
    intro hof
    simp only [isSequenceOf, opensType, decide_eq_true_eq, Bool.decide_and, Bool.and_eq_true]
      at hof hopens
    rw [hof.2] at hopens
    exact absurd hopens.2 (by decide)
  simp only [Element.processLine, sequenceLine, Bool.not_true, Bool.false_eq_true, if_false,
    if_neg hne, if_pos hlower, memberLine, hsequenceOf, hopens, if_true]
  rw [Element.read, Element.collect, judged_eq]

/-- A SEQUENCE OF member has an element of its own for the next line. -/
theorem processLine_sequenceOf {raw : Text} (hlower : startsLower (token raw 0) = true)
    (hsequenceOf : isSequenceOf (token raw 1) (token raw 2) = true) :
    (Element.mk (.sequence c modComment true) inc acc coll).processLine cfg raw =
      .push (decided c modComment
          (dropsMember cfg (collect coll (szComment raw))) (inc ++ [raw]) acc)
        (.new (.sequenceOf (collect coll (szComment raw)))) := by
  have hne := szLine_ne_nil hlower
  simp only [Element.processLine, sequenceLine, Bool.not_true, Bool.false_eq_true, if_false,
    if_neg hne, if_pos hlower, memberLine, hsequenceOf, if_true]
  rw [Element.read, Element.collect, judged_eq]

theorem run_unopened (below : List Element) {pre : List Text}
    (h : ∀ raw ∈ pre, '\x7b' ∉ szLine raw) :
    processLines cfg (⟨.sequence c modComment false, inc, acc, []⟩ :: below) pre =
      ⟨.sequence c modComment false, inc ++ pre, acc, []⟩ :: below := by
  have hrun := @run_stay cfg (.sequence c modComment false) (fun coll _ => coll) inc acc [] below
    pre fun inc coll raw hraw => by
      simp [Element.processLine, sequenceLine, Element.read, Element.become, h raw hraw]
  rwa [List.foldl_fixed] at hrun

/-- The lines up to the opening bracket wait for the first member. -/
theorem run_opening (below : List Element) {opened : Bool} {opening : List Text}
    (h : Opens opened opening) :
    processLines cfg (Element.new (.sequence c modComment opened) :: below) opening =
      ⟨.sequence c modComment true, opening, [], []⟩ :: below := by
  cases opened with
  | true =>
      obtain rfl : opening = [] := h
      rfl
  | false =>
      obtain ⟨hpre, last, hmem, hlast⟩ := h
      obtain ⟨pre, rfl⟩ : ∃ pre, opening = pre ++ [last] :=
        ⟨_, (List.dropLast_append_getLast? last hmem).symm⟩
      rw [List.dropLast_concat] at hpre
      have hstep : (Element.mk (.sequence c modComment false) pre [] []).processLine cfg last =
          .stay ⟨.sequence c modComment true, pre ++ [last], [], []⟩ := by
        simp [Element.processLine, sequenceLine, Element.read, Element.become, hlast]
      rw [processLines_append, Element.new, run_unopened below hpre, processLines_cons,
        List.nil_append, processLine_of_stay below hstep]
      rfl

/-- What is accepted behind a decision is what was there and what is kept. -/
theorem accepted_eq {filtered waiting : Bool} {lead : List Text} (own : List Text)
    (h : Alone filtered waiting lead) (hinc : waiting = false → inc = []) :
    (if filtered then acc else acc ++ (inc ++ lead ++ own)) =
      acc ++ inc ++ keptLines filtered lead own := by
  rw [keptLines_of_alone own h]
  cases filtered with
  | true => simp [hinc (h rfl).1]
  | false => simp

/-! ### Lines that are taken -/

/-- The stack of a type. A SEQUENCE OF member with the comments `coms` may be taking a line. -/
def typeStack (taking : Bool) (coms : List Text) (el : Element) (below : List Element) :
    List Element :=
  if taking then Element.new (.sequenceOf coms) :: el :: below else el :: below

/-- The line that is taken is accepted as it is, if the member stays. -/
theorem processLine_taken (coms : List Text) (below : List Element) (raw : Text) :
    processLine cfg (typeStack true coms ⟨.sequence c modComment true, [], acc, []⟩ below) raw =
      ⟨.sequence c modComment true, [], if dropsAlone cfg coms then acc else acc ++ [raw], []⟩ ::
        below := by
  have hstep : (Element.new (.sequenceOf coms)).processLine cfg raw =
      .done ((Element.mk (.sequenceOf coms) [raw] [] []).judge (dropsAlone cfg coms))
        (dropsAlone cfg coms) := rfl
  rw [typeStack, if_pos rfl, processLine_of_done _ below hstep, hand_eq (by
    cases dropsAlone cfg coms <;> rfl)]
  cases dropsAlone cfg coms with
  | true => rfl
  | false => simp [Element.receive, Element.judge, Element.accept]

theorem applyTag_of_untagged {comment : Text} (h : Untagged comment) (p : Comment) :
    applyTag cfg p comment = p := by
  rw [applyTag]
  simp only [h.1, h.2, Bool.false_eq_true, if_false]

theorem convertCommentList_append (xs ys : List Text) (p : Comment) :
    convertCommentList cfg (xs ++ ys) p =
      convertCommentList cfg ys (convertCommentList cfg xs p) :=
  List.foldl_append

theorem convertCommentList_collect (coms : List Text) (comment : Text) (p : Comment) :
    convertCommentList cfg (collect coms comment) p =
      if comment = [] then convertCommentList cfg coms p
      else applyTag cfg (convertCommentList cfg coms p) comment := by
  rw [collect]
  by_cases hempty : comment = []
  · rw [if_pos hempty, if_pos hempty]
  · rw [if_neg hempty, if_neg hempty, convertCommentList_append]
    rfl

/-- What is collected counts for what comes by its properties alone. -/
theorem convertCommentList_collectAll {coll coll' : List Text}
    (h : ∀ p, convertCommentList cfg coll p = convertCommentList cfg coll' p) (lead : List Text)
    (p : Comment) :
    convertCommentList cfg (collectAll coll lead) p =
      convertCommentList cfg (collectAll coll' lead) p := by
  rw [collectAll, collectAll]
  induction lead.filter (fun raw => decide (szLine raw = [])) generalizing coll coll' with
  | nil => exact h p
  | cons raw lead ih =>
      refine ih fun p => ?_
      rw [convertCommentList_collect, convertCommentList_collect, h p]

theorem convertCommentList_harmless {raw : Text} (h : Harmless raw) (lead : List Text)
    (p : Comment) :
    convertCommentList cfg (collectAll [] (raw :: lead)) p =
      convertCommentList cfg (collectAll [] lead) p := by
  by_cases hempty : szLine raw = []
  · have hcons : collectAll [] (raw :: lead) = collectAll (collect [] (szComment raw)) lead := by
      rw [collectAll, List.filter_cons_of_pos (by simpa using hempty)]
      rfl
    rw [hcons]
    refine convertCommentList_collectAll (fun p => ?_) lead p
    rw [convertCommentList_collect, applyTag_of_untagged (h.resolve_left (not_not.mpr hempty)),
      ite_self]
  · have hcons : collectAll [] (raw :: lead) = collectAll [] lead := by
      rw [collectAll, List.filter_cons_of_neg (by simpa using hempty)]
      rfl
    rw [hcons]

/-! ### Members -/

/-- What the lines in front of a member bring about: its comments say what they say, and with the
lines of its own the lines in front are accepted as far as they are kept. -/
structure Fronted (cfg : Config) (inc acc lead : List Text) (filtered : Bool)
    (inc₁ acc₁ coll₁ : List Text) : Prop where
  comments : ∀ line p, convertCommentList cfg (collect coll₁ (szComment line)) p =
    convertCommentList cfg (memberComments lead line) p
  accepted : ∀ own, (if filtered then acc₁ else acc₁ ++ (inc₁ ++ own)) =
    acc ++ inc ++ keptLines filtered lead own

theorem run_front {strict filtered waiting taking : Bool} {coms lead : List Text}
    (below : List Element) (hquiet : ∀ raw ∈ lead, IsQuiet raw)
    (hfront : Front strict filtered waiting taking lead)
    (hinc : strict = true → waiting = false → inc = [])
    (htaking : taking = true → inc = [] ∧ (strict = true → dropsAlone cfg coms = false))
    (hne : taking = true → lead ≠ []) :
    ∃ inc₁ acc₁ coll₁, processLines cfg
        (typeStack taking coms ⟨.sequence c modComment true, inc, acc, []⟩ below) lead =
          ⟨.sequence c modComment true, inc₁, acc₁, coll₁⟩ :: below ∧
      (strict = true → Fronted cfg inc acc lead filtered inc₁ acc₁ coll₁) := by
  cases taking with
  | false =>
      refine ⟨inc ++ lead, acc, collectAll [] lead, run_quiet below hquiet, fun hstrict =>
        ⟨fun _ _ => rfl, fun own => accepted_eq own (hfront hstrict).1 (hinc hstrict)⟩⟩
  | true =>
      cases lead with
      | nil => exact absurd rfl (hne rfl)
      | cons raw lead =>
          -- the first of the lines is taken, the others are read
          obtain ⟨rfl, hcoms⟩ := htaking rfl
          refine ⟨lead, if dropsAlone cfg coms then acc else acc ++ [raw], collectAll [] lead, ?_,
            fun hstrict => ⟨fun line p => ?_, fun own => ?_⟩⟩
          · rw [processLines_cons, processLine_taken]
            exact run_quiet below (List.forall_mem_cons.mp hquiet).2
          · have hharmless : Harmless raw := ((hfront hstrict).2 rfl).2 raw rfl
            rw [memberComments, convertCommentList_collect, convertCommentList_collect,
              convertCommentList_harmless hharmless]
          · obtain rfl := ((hfront hstrict).2 rfl).1
            rw [hcoms hstrict]
            simp [keptLines]

/-- A line of a member that is taken is accepted with it. -/
theorem run_taken {strict filtered waiting : Bool} {coms : List Text} (below : List Element)
    (line : Text) (hfront : Front strict filtered waiting true [])
    (htaking : inc = [] ∧ (strict = true → dropsAlone cfg coms = false)) :
    ∃ acc₁, processLines cfg
        (typeStack true coms ⟨.sequence c modComment true, inc, acc, []⟩ below) [line] =
          ⟨.sequence c modComment true, [], acc₁, []⟩ :: below ∧
      (strict = true → acc₁ = acc ++ inc ++ keptLines filtered [] [line]) := by
  obtain ⟨rfl, hcoms⟩ := htaking
  refine ⟨_, processLine_taken coms below line, fun hstrict => ?_⟩
  obtain rfl := ((hfront hstrict).2 rfl).1
  rw [hcoms hstrict]
  simp [keptLines]

theorem dropsMember_of_fronted {inc₁ acc₁ coll₁ lead : List Text} {filtered : Bool}
    (h : Fronted cfg inc acc lead filtered inc₁ acc₁ coll₁) (line : Text) :
    dropsMember cfg (collect coll₁ (szComment line)) =
      dropsMember cfg (memberComments lead line) :=
  congrArg (isFiltered cfg.settings) (h.comments line .none)

theorem run_plain {strict waiting taking : Bool} {coms lead : List Text} {line : Text}
    (below : List Element) (hquiet : ∀ raw ∈ lead, IsQuiet raw)
    (hlower : startsLower (token line 0) = true)
    (hsequenceOf : isSequenceOf (token line 1) (token line 2) = false)
    (hopens : opensType (token line 1) (token line 2) = false) (hbracket : '\x7d' ∉ szLine line)
    (hfront : Front strict (dropsMember cfg (memberComments lead line)) waiting taking lead)
    (hinc : strict = true → waiting = false → inc = [])
    (htaking : taking = true → inc = [] ∧ (strict = true → dropsAlone cfg coms = false)) :
    ∃ acc₁, processLines cfg
        (typeStack taking coms ⟨.sequence c modComment true, inc, acc, []⟩ below)
          (lead ++ [line]) = ⟨.sequence c modComment true, [], acc₁, []⟩ :: below ∧
      (strict = true → acc₁ = acc ++ inc ++
        keptLines (dropsMember cfg (memberComments lead line)) lead [line]) := by
  by_cases htaken : taking = true ∧ lead = []
  · obtain ⟨rfl, rfl⟩ := htaken
    exact run_taken below line hfront (htaking rfl)
  · obtain ⟨inc₁, acc₁, coll₁, hrun, hfronted⟩ := @run_front cfg c modComment inc acc strict _
      waiting taking coms lead below hquiet hfront hinc htaking fun htrue hnil =>
        htaken ⟨htrue, hnil⟩
    have hstep := @processLine_member cfg c modComment inc₁ acc₁ coll₁ line hlower hsequenceOf
      hopens
    rw [closeLine, if_neg hbracket] at hstep
    refine ⟨if dropsMember cfg (collect coll₁ (szComment line)) then acc₁
      else acc₁ ++ (inc₁ ++ [line]), ?_, fun hstrict => ?_⟩
    · rw [processLines_append, hrun, processLines_cons, processLine_of_stay below hstep]
      rfl
    · rw [dropsMember_of_fronted (hfronted hstrict)]
      exact (hfronted hstrict).accepted [line]

/-- A SEQUENCE OF member takes the line behind it, unless its own line is taken. -/
theorem run_sequenceOf {strict waiting taking : Bool} {coms lead : List Text} {line : Text}
    (below : List Element) (hquiet : ∀ raw ∈ lead, IsQuiet raw)
    (hlower : startsLower (token line 0) = true)
    (hsequenceOf : isSequenceOf (token line 1) (token line 2) = true)
    (hfront : Front strict (dropsMember cfg (memberComments lead line)) waiting taking lead)
    (hdrops : strict = true → dropsMember cfg (memberComments lead line) = false)
    (hinc : strict = true → waiting = false → inc = [])
    (htaking : taking = true → inc = [] ∧ (strict = true → dropsAlone cfg coms = false)) :
    ∃ acc₁ coms₁, processLines cfg
        (typeStack taking coms ⟨.sequence c modComment true, inc, acc, []⟩ below)
          (lead ++ [line]) = typeStack (!(taking && lead.isEmpty)) coms₁
            ⟨.sequence c modComment true, [], acc₁, []⟩ below ∧
      (strict = true → dropsAlone cfg coms₁ = false) ∧
      (strict = true → acc₁ = acc ++ inc ++
        keptLines (dropsMember cfg (memberComments lead line)) lead [line]) := by
  by_cases htaken : taking = true ∧ lead = []
  · obtain ⟨rfl, rfl⟩ := htaken
    obtain ⟨acc₁, hrun, hacc⟩ := @run_taken cfg c modComment inc acc strict _ waiting coms below
      line hfront (htaking rfl)
    exact ⟨acc₁, coms, hrun, (htaking rfl).2, hacc⟩
  · obtain ⟨inc₁, acc₁, coll₁, hrun, hfronted⟩ := @run_front cfg c modComment inc acc strict _
      waiting taking coms lead below hquiet hfront hinc htaking fun htrue hnil =>
        htaken ⟨htrue, hnil⟩
    have hstep := @processLine_sequenceOf cfg c modComment inc₁ acc₁ coll₁ line hlower hsequenceOf
    have htakes : (!(taking && lead.isEmpty)) = true := by
      cases taking with
      | false => rfl
      | true =>
          cases lead with
          | nil => exact absurd ⟨rfl, rfl⟩ htaken
          | cons raw lead => rfl
    refine ⟨if dropsMember cfg (collect coll₁ (szComment line)) then acc₁
      else acc₁ ++ (inc₁ ++ [line]), collect coll₁ (szComment line), ?_, fun hstrict => ?_,
      fun hstrict => ?_⟩
    · rw [processLines_append, hrun, processLines_cons, processLine_of_push below hstep, htakes]
      rfl
    · exact (dropsMember_of_fronted (hfronted hstrict) line).trans (hdrops hstrict)
    · rw [dropsMember_of_fronted (hfronted hstrict)]
      exact (hfronted hstrict).accepted [line]

theorem run_close {strict waiting taking : Bool} {coms tail : List Text} {close : Text}
    (below : Element) (stack : List Element) (h : Closes tail close)
    (hfront : Front strict (dropsClose cfg tail close) waiting taking tail)
    (hinc : strict = true → waiting = false → inc = [])
    (htaking : taking = true → inc = [] ∧ (strict = true → dropsAlone cfg coms = false))
    (hnonempty : taking = true → tail ≠ []) :
    ∃ content, processLines cfg
        (typeStack taking coms ⟨.sequence c modComment true, inc, acc, []⟩ (below :: stack))
          (tail ++ [close]) = below.receive (isFiltered cfg.settings c) content :: stack ∧
      (strict = true → content =
        acc ++ inc ++ keptLines (dropsClose cfg tail close) tail [close]) := by
  have hne : szLine close ≠ [] := List.ne_nil_of_mem h.bracket
  obtain ⟨inc₁, acc₁, coll₁, hrun, hfronted⟩ := @run_front cfg c modComment inc acc strict _
    waiting taking coms tail (below :: stack) h.quiet hfront hinc htaking hnonempty
  -- the closing line may be that of the last member, which is decided on first
  by_cases hlower : startsLower (token close 0) = true
  · have hdrops : dropsClose cfg tail close = dropsMember cfg (memberComments tail close) := by
      rw [dropsClose, hlower, Bool.true_and]
    have hstep := @processLine_member cfg c modComment inc₁ acc₁ coll₁ close hlower
      h.not_sequenceOf h.not_opens
    rw [closeLine, if_pos h.bracket] at hstep
    refine ⟨if dropsMember cfg (collect coll₁ (szComment close)) then acc₁
      else acc₁ ++ (inc₁ ++ [close]), ?_, fun hstrict => ?_⟩
    · rw [processLines_append, hrun, processLines_cons, processLine_of_done below stack hstep,
        hand_eq rfl]
      simp only [decided, Element.accept, List.append_nil]
      rfl
    · rw [dropsMember_of_fronted (hfronted hstrict), ← hdrops]
      exact (hfronted hstrict).accepted [close]
  · have hdrops : dropsClose cfg tail close = false := by
      rw [dropsClose, Bool.eq_false_iff.mpr hlower, Bool.false_and]
    have hstep : (Element.mk (.sequence c modComment true) inc₁ acc₁ coll₁).processLine cfg close =
        .done ⟨.sequence c modComment true, [], acc₁ ++ (inc₁ ++ [close]), coll₁⟩
          (isFiltered cfg.settings c) := by
      simp [Element.processLine, sequenceLine, hne, hlower, closeLine, h.bracket, Element.read,
        Element.accept]
    refine ⟨acc₁ ++ (inc₁ ++ [close]), ?_, fun hstrict => ?_⟩
    · rw [processLines_append, hrun, processLines_cons, processLine_of_done below stack hstep,
        hand_eq rfl]
      rfl
    · have haccepted := (hfronted hstrict).accepted [close]
      rw [hdrops] at haccepted ⊢
      exact haccepted

theorem isEmpty_of_not_waiting {opening : List Text} (h : (!opening.isEmpty) = false) :
    opening = [] := by
  cases opening with
  | nil => rfl
  | cons raw opening => cases h

/-- What a run through members brings about: if it is strict, their lines are there as far as they
are kept, and nothing waits behind them. -/
def RunsMembers (cfg : Config) (c modComment : Comment) (inc acc coms : List Text)
    (below : List Element) (members : Members) (strict waiting taking : Bool) : Prop :=
  ∃ inc' acc' coms', processLines cfg
      (typeStack taking coms ⟨.sequence c modComment true, inc, acc, []⟩ below) members.lines =
        typeStack (members.takes taking) coms' ⟨.sequence c modComment true, inc', acc', []⟩ below ∧
    (members.takes taking = true → inc' = [] ∧ (strict = true → dropsAlone cfg coms' = false)) ∧
    (strict = true → acc' ++ inc' = acc ++ inc ++ members.kept cfg ∧
      (members.waits waiting = false → inc' = []))

/-- The body of a type: its members and what is around them. -/
theorem run_body {members : Members} {strict : Bool} (below : Element) (stack : List Element)
    {opened : Bool} {opening tail : List Text} {close : Text} (hopens : Opens opened opening)
    (hcloses : Closes tail close) (hnonempty : members.takes false = true → tail ≠ [])
    (hfront : Front strict (dropsClose cfg tail close) (members.waits !opening.isEmpty)
      (members.takes false) tail)
    (hmembers : RunsMembers cfg c modComment opening [] [] (below :: stack) members strict
      (!opening.isEmpty) false) :
    ∃ content, processLines cfg (Element.new (.sequence c modComment opened) :: below :: stack)
          (opening ++ (members.lines ++ (tail ++ [close]))) =
        below.receive (isFiltered cfg.settings c) content :: stack ∧
      (strict = true → content = opening ++ members.kept cfg ++
        keptLines (dropsClose cfg tail close) tail [close]) := by
  obtain ⟨inc', acc', coms', hrun, htaking, hkept⟩ := hmembers
  obtain ⟨content, hclose, hcontent⟩ := @run_close cfg c modComment inc' acc' strict
    (members.waits !opening.isEmpty) (members.takes false) coms' tail close below stack hcloses
    hfront (fun hstrict => (hkept hstrict).2) htaking hnonempty
  refine ⟨content, ?_, fun hstrict => ?_⟩
  · rw [processLines_append, run_opening _ hopens, processLines_append]
    exact (congrArg (fun stack => processLines cfg stack (tail ++ [close])) hrun).trans hclose
  · rw [hcontent hstrict, (hkept hstrict).1]
    rfl

/-- The element of a type when an inline type in it ends. -/
theorem receive_decided (filtered drops : Bool) (lines : List Text) :
    (decided c modComment drops inc acc).receive filtered lines =
      ⟨.sequence c modComment true, [], if filtered then (if drops then acc else acc ++ inc)
        else (if drops then acc else acc ++ inc) ++ lines, []⟩ := by
  cases filtered with
  | true => rfl
  | false => simp [Element.receive, decided]

/-- A first member that leaves nothing waiting, and the rest. -/
theorem runsMembers_cons {members rest : Members} {coms coms₁ acc₁ lines own : List Text}
    {strict waiting taking taking₁ : Bool} {below : List Element}
    (hlines : members.lines = lines ++ rest.lines)
    (hkept : members.kept cfg = own ++ rest.kept cfg)
    (htakes : members.takes taking = rest.takes taking₁)
    (hfirst : processLines cfg
      (typeStack taking coms ⟨.sequence c modComment true, inc, acc, []⟩ below) lines =
        typeStack taking₁ coms₁ ⟨.sequence c modComment true, [], acc₁, []⟩ below)
    (hacc : strict = true → acc₁ = acc ++ inc ++ own)
    (hrest : RunsMembers cfg c modComment [] acc₁ coms₁ below rest strict false taking₁) :
    RunsMembers cfg c modComment inc acc coms below members strict waiting taking := by
  obtain ⟨inc', acc', coms', hrun, htaking, hrestKept⟩ := hrest
  rw [RunsMembers, htakes]
  refine ⟨inc', acc', coms', ?_, htaking, fun hstrict =>
    ⟨?_, fun _ => (hrestKept hstrict).2 (by cases rest <;> rfl)⟩⟩
  · rw [hlines, processLines_append, hfirst, hrun]
  · rw [(hrestKept hstrict).1, hacc hstrict, hkept]
    simp only [List.append_assoc, List.append_nil]

/-- A member of an inline type, given what its members do. -/
theorem run_inline {strict waiting taking opened : Bool} {coms lead opening tail : List Text}
    {line close : Text} {members : Members} (below : List Element)
    (hquiet : ∀ raw ∈ lead, IsQuiet raw) (hlower : startsLower (token line 0) = true)
    (hopens : opensType (token line 1) (token line 2) = true)
    (hopened : opened = decide (token line 2 = ['\x7b'])) (hopening : Opens opened opening)
    (hcloses : Closes tail close)
    (hne : taking = true → lead ≠ [])
    (hfront : Front strict (dropsMember cfg (memberComments lead line)) waiting taking lead)
    (hagree : strict = true → dropsWith cfg modComment (memberComments lead line) =
      dropsMember cfg (memberComments lead line))
    (hnonempty : members.takes false = true → tail ≠ [])
    (hfrontClose : Front (strict && !dropsMember cfg (memberComments lead line))
      (dropsClose cfg tail close) (members.waits !opening.isEmpty) (members.takes false) tail)
    (hinc : strict = true → waiting = false → inc = [])
    (htaking : taking = true → inc = [] ∧ (strict = true → dropsAlone cfg coms = false))
    (hmembers : ∀ c below, RunsMembers cfg c modComment opening [] [] below members
      (strict && !dropsMember cfg (memberComments lead line)) (!opening.isEmpty) false) :
    ∃ acc₁, processLines cfg
        (typeStack taking coms ⟨.sequence c modComment true, inc, acc, []⟩ below)
          (lead ++ line :: (opening ++ (members.lines ++ (tail ++ [close])))) =
            ⟨.sequence c modComment true, [], acc₁, []⟩ :: below ∧
      (strict = true → acc₁ = acc ++ inc ++
        keptLines (dropsMember cfg (memberComments lead line)) lead
          (line :: (opening ++ members.kept cfg ++
            keptLines (dropsClose cfg tail close) tail [close]))) := by
  obtain ⟨inc₁, acc₁, coll₁, hlead, hfronted⟩ := @run_front cfg c modComment inc acc strict _
    waiting taking coms lead below hquiet hfront hinc htaking hne
  have hstep := @processLine_inline cfg c modComment inc₁ acc₁ coll₁ line hlower hopens
  rw [← hopened] at hstep
  obtain ⟨content, hbody, hcontent⟩ := run_body (decided c modComment
    (dropsMember cfg (collect coll₁ (szComment line))) (inc₁ ++ [line]) acc₁) below hopening
    hcloses hnonempty hfrontClose
    (hmembers (convertCommentList cfg (collect coll₁ (szComment line)) modComment) _)
  rw [receive_decided] at hbody
  refine ⟨_, Eq.trans ?_ hbody, fun hstrict => ?_⟩
  · rw [processLines_append, hlead, processLines_cons, processLine_of_push below hstep]
  · -- the body stays or goes as the line of the member does
    have hagree := hagree hstrict
    rw [dropsWith, ← (hfronted hstrict).comments] at hagree
    rw [hagree, dropsMember_of_fronted (hfronted hstrict), ← (hfronted hstrict).accepted]
    cases hdrops : dropsMember cfg (memberComments lead line) with
    | true => rfl
    | false =>
        rw [hcontent (by rw [hstrict, hdrops]; rfl)]
        simp

/-- The members of a type, one after the other. The induction carries what still waits in front of
the next member, and whether its first line is taken. -/
theorem run_members (members : Members) {strict waiting taking : Bool} {coms : List Text}
    (below : List Element) (hlayout : members.Layout)
    (hhandled : members.Handled cfg modComment strict waiting taking)
    (hinc : strict = true → waiting = false → inc = [])
    (htaking : taking = true → inc = [] ∧ (strict = true → dropsAlone cfg coms = false)) :
    RunsMembers cfg c modComment inc acc coms below members strict waiting taking := by
  induction members generalizing c inc acc coms strict waiting taking below with
  | nil => exact ⟨inc, acc, coms, rfl, htaking, fun hstrict =>
      ⟨(List.append_nil _).symm, hinc hstrict⟩⟩
  | plain lead line rest ih =>
      obtain ⟨hquiet, hlower, hsequenceOf, hopens, hrest⟩ := hlayout
      obtain ⟨hfront, hbracket, hhandled⟩ := hhandled
      obtain ⟨acc₁, hline, hacc⟩ := @run_plain cfg c modComment inc acc strict waiting taking coms
        lead line below hquiet hlower hsequenceOf hopens hbracket hfront hinc htaking
      exact @runsMembers_cons cfg c modComment inc acc _ rest coms [] acc₁ _ _ strict waiting
        taking false below (List.append_cons lead line rest.lines) rfl rfl hline hacc
        (@ih c [] acc₁ strict false false [] below hrest hhandled (fun _ _ => rfl) nofun)
  | sequenceOf lead line rest ih =>
      obtain ⟨hquiet, hlower, hsequenceOf, hrest⟩ := hlayout
      obtain ⟨hfront, hdrops, hhandled⟩ := hhandled
      -- the member takes the first line of the rest, unless its own line is taken
      obtain ⟨acc₁, coms₁, hline, hcoms, hacc⟩ := @run_sequenceOf cfg c modComment inc acc strict
        waiting taking coms lead line below hquiet hlower hsequenceOf hfront hdrops hinc htaking
      exact runsMembers_cons (List.append_cons lead line rest.lines) rfl rfl hline hacc
        (@ih c [] acc₁ strict false (!(taking && lead.isEmpty)) coms₁ below hrest hhandled
          (fun _ _ => rfl) fun _ => ⟨rfl, hcoms⟩)
  | inline lead line opening members tail close rest ihMembers ihRest =>
      obtain ⟨hquiet, hlower, hopens, hopening, hmembers, hcloses, hrest⟩ := hlayout
      obtain ⟨hne, hfront, hagree, hhandledMembers, hnonempty, hfrontClose, hhandledRest⟩ :=
        hhandled
      obtain ⟨acc₁, hinner, hacc⟩ := @run_inline cfg c modComment inc acc strict waiting taking _
        coms lead opening tail line close members below hquiet hlower hopens rfl hopening hcloses
        hne hfront hagree hnonempty hfrontClose hinc htaking fun c' below' =>
          @ihMembers c' opening [] _ (!opening.isEmpty) false [] below' hmembers hhandledMembers
            (fun _ => isEmpty_of_not_waiting) nofun
      refine @runsMembers_cons cfg c modComment inc acc _ rest coms [] acc₁ _ _ strict waiting
        taking false below ?_ rfl rfl hinner hacc
        (@ihRest c [] acc₁ strict false false [] below hrest hhandledRest (fun _ _ => rfl) nofun)
      rw [Members.lines]
      simp only [List.append_assoc, List.cons_append, List.nil_append]

end Sequence

end Esnacc.Compiler.CommentParser
