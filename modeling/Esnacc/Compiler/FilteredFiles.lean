import Esnacc.Compiler.CommentRuns
import Mathlib.Data.Char

/-!
Filtered files: what the definitions of a module, its modules and the lines around them do to the
stack. Together they leave the lines of the file without those of what is filtered, if none of the
cases is met in which lines are lost or get in.
-/

namespace Esnacc.Compiler.CommentParser

variable {cfg : Config}

/-! ### Comments that are carried over -/

/-- Comments that change nothing for what follows. -/
def Carried (cfg : Config) (coll : List Text) : Prop :=
  ∀ p, convertCommentList cfg coll p = p

theorem carried_nil : Carried cfg [] := fun _ => rfl

theorem convertCommentList_carried {coll : List Text} (h : Carried cfg coll) (xs : List Text)
    (p : Comment) : convertCommentList cfg (coll ++ xs) p = convertCommentList cfg xs p := by
  rw [convertCommentList_append, h p]

theorem carried_note {coll : List Text} {comment : Text} (h : Carried cfg coll)
    (huntagged : Untagged comment) : Carried cfg (note coll comment) := by
  rw [note]
  by_cases hclear : "@clear".toList.isPrefixOf comment = true
  · rw [if_pos hclear]
    exact carried_nil
  · rw [if_neg hclear, collect]
    by_cases hempty : comment = []
    · rw [if_pos hempty]
      exact h
    · rw [if_neg hempty]
      intro p
      rw [convertCommentList_carried h]
      exact applyTag_of_untagged huntagged p

theorem noteAll_cons_empty {coll : List Text} {raw : Text} (lead : List Text)
    (h : szLine raw = []) :
    noteAll coll (raw :: lead) = noteAll (note coll (szComment raw)) lead := by
  rw [noteAll, List.filter_cons_of_pos (by simpa using h)]
  rfl

theorem noteAll_cons_of_ne {coll : List Text} {raw : Text} (lead : List Text)
    (h : szLine raw ≠ []) : noteAll coll (raw :: lead) = noteAll coll lead := by
  rw [noteAll, List.filter_cons_of_neg (by simpa using h)]
  rfl

theorem carried_noteAll {coll lead : List Text} (h : Carried cfg coll)
    (huntagged : ∀ raw ∈ lead, szLine raw = [] → Untagged (szComment raw)) :
    Carried cfg (noteAll coll lead) := by
  induction lead generalizing coll with
  | nil => exact h
  | cons raw lead ih =>
      obtain ⟨hraw, hlead⟩ := List.forall_mem_cons.mp huntagged
      by_cases hempty : szLine raw = []
      · rw [noteAll_cons_empty lead hempty]
        exact ih (carried_note h (hraw hempty)) hlead
      · rw [noteAll_cons_of_ne lead hempty]
        exact ih h hlead

/-- What is carried over stays in front, until `@clear` forgets it. -/
theorem convertCommentList_noteAll {coll : List Text} (h : Carried cfg coll) (own lead : List Text)
    (p : Comment) : convertCommentList cfg (noteAll (coll ++ own) lead) p =
      convertCommentList cfg (noteAll own lead) p := by
  induction lead generalizing own with
  | nil => exact convertCommentList_carried h own p
  | cons raw lead ih =>
      by_cases hempty : szLine raw = []
      · rw [noteAll_cons_empty lead hempty, noteAll_cons_empty lead hempty, note, note]
        by_cases hclear : "@clear".toList.isPrefixOf (szComment raw) = true
        · rw [if_pos hclear, if_pos hclear]
        · rw [if_neg hclear, if_neg hclear, collect, collect]
          by_cases hcomment : szComment raw = []
          · rw [if_pos hcomment, if_pos hcomment]
            exact ih own
          · rw [if_neg hcomment, if_neg hcomment, List.append_assoc]
            exact ih (own ++ [szComment raw])
      · rw [noteAll_cons_of_ne lead hempty, noteAll_cons_of_ne lead hempty]
        exact ih own

theorem dropsAlone_noteAll {coll : List Text} (h : Carried cfg coll) (lead : List Text) :
    dropsAlone cfg (noteAll coll lead) = dropsAlone cfg (noteAll [] lead) := by
  have hconvert := convertCommentList_noteAll h [] lead .none
  rw [List.append_nil] at hconvert
  rw [dropsAlone, dropsAlone, hconvert]

theorem dropsWith_noteAll {coll : List Text} (h : Carried cfg coll) (c : Comment)
    (lead : List Text) :
    dropsWith cfg c (noteAll coll lead) = dropsWith cfg c (noteAll [] lead) := by
  have hconvert := convertCommentList_noteAll h [] lead c
  rw [List.append_nil] at hconvert
  rw [dropsWith, dropsWith, hconvert]

/-! ### Definitions -/

section Module

variable {c : Comment} {wait strict : Bool} {inc acc coll : List Text}

theorem run_lead (below : List Element) {lead : List Text} (h : ∀ raw ∈ lead, szLine raw = []) :
    processLines cfg (⟨.module c wait, inc, acc, coll⟩ :: below) lead =
      ⟨.module c wait, inc ++ lead, acc, noteAll coll lead⟩ :: below := by
  rw [noteAll, List.foldl_filter]
  refine run_stay below fun inc coll raw hraw => ?_
  simp [Element.processLine, moduleLine, h raw hraw, Element.read, Element.note]

theorem processLine_ordinary {raw : Text} (h : IsOrdinary raw) :
    (Element.mk (.module c false) inc acc coll).processLine cfg raw =
      if startsUpper (szLine raw) then
        typeLine cfg c ⟨.module c false, inc ++ [raw], acc, coll⟩ raw
      else if startsLower (szLine raw) then
        valueLine cfg c ⟨.module c false, inc ++ [raw], acc, coll⟩ raw
      else .stay ⟨.module c false, inc ++ [raw], acc, coll⟩ := by
  have himport : ¬ (token raw 0 = "IMPORTS".toList ∨ token raw 0 = "EXPORTS".toList) :=
    h.not_import
  simp only [Element.processLine, moduleLine, if_neg h.not_end, if_neg h.not_empty,
    if_neg himport, Bool.false_eq_true, if_false, Element.read]

theorem processLine_import {raw : Text} (hend : szLine raw ≠ "END".toList) (h : isImport raw) :
    (Element.mk (.module c wait) inc acc coll).processLine cfg raw =
      .stay ⟨.module c (';' ∉ szLine raw), inc ++ [raw], acc, coll⟩ := by
  have hempty : szLine raw ≠ [] := by
    intro hempty
    rw [isImport, token, tokens, hempty] at h
    exact absurd h (by decide)
  have himport : token raw 0 = "IMPORTS".toList ∨ token raw 0 = "EXPORTS".toList := h
  simp only [Element.processLine, moduleLine, if_neg hend, if_neg hempty, if_pos himport,
    Element.read, Element.become]

/-- A line of a list of imports that has not ended. -/
theorem processLine_importLine {raw : Text} (h : IsOrdinary raw) :
    (Element.mk (.module c true) inc acc coll).processLine cfg raw =
      .stay ⟨.module c (';' ∉ szLine raw), [], acc ++ (inc ++ [raw]), coll⟩ := by
  have himport : ¬ (token raw 0 = "IMPORTS".toList ∨ token raw 0 = "EXPORTS".toList) :=
    h.not_import
  simp only [Element.processLine, moduleLine, if_neg h.not_end, if_neg h.not_empty,
    if_neg himport, if_true, Element.read, Element.accept, Element.become]

theorem run_importMid (below : List Element) {mid : List Text}
    (h : ∀ raw ∈ mid, szLine raw = [] ∨ IsOrdinary raw ∧ ';' ∉ szLine raw)
    (huntagged : strict = true → ∀ raw ∈ mid, szLine raw = [] → Untagged (szComment raw))
    (hcoll : strict = true → Carried cfg coll) :
    ∃ inc' acc' coll', processLines cfg (⟨.module c true, inc, acc, coll⟩ :: below) mid =
        ⟨.module c true, inc', acc', coll'⟩ :: below ∧
      acc' ++ inc' = acc ++ inc ++ mid ∧ (strict = true → Carried cfg coll') := by
  induction mid generalizing inc acc coll with
  | nil => exact ⟨inc, acc, coll, rfl, (List.append_nil _).symm, hcoll⟩
  | cons raw mid ih =>
      obtain ⟨hraw, hmid⟩ := List.forall_mem_cons.mp h
      have huntaggedMid : strict = true → ∀ r ∈ mid, szLine r = [] → Untagged (szComment r) :=
        fun hstrict => (List.forall_mem_cons.mp (huntagged hstrict)).2
      rw [processLines_cons]
      rcases hraw with hempty | ⟨hordinary, hsemicolon⟩
      · have hlead := @run_lead cfg c true inc acc coll below [raw] (by simpa using hempty)
        rw [noteAll_cons_empty [] hempty] at hlead
        obtain ⟨inc', acc', coll', hrun, hkept, hcarried⟩ :=
          @ih (inc ++ [raw]) acc _ hmid huntaggedMid fun hstrict =>
            carried_note (hcoll hstrict) ((List.forall_mem_cons.mp (huntagged hstrict)).1 hempty)
        refine ⟨inc', acc', coll', ?_, ?_, hcarried⟩
        · rw [← hrun]
          exact congrArg (fun stack => processLines cfg stack mid) hlead
        · rw [hkept]
          simp only [List.append_assoc, List.cons_append, List.nil_append]
      · have hstep := @processLine_importLine cfg c inc acc coll raw hordinary
        rw [decide_eq_true hsemicolon] at hstep
        obtain ⟨inc', acc', coll', hrun, hkept, hcarried⟩ :=
          @ih [] (acc ++ (inc ++ [raw])) coll hmid huntaggedMid hcoll
        refine ⟨inc', acc', coll', ?_, ?_, hcarried⟩
        · rw [processLine_of_stay below hstep]
          exact hrun
        · rw [hkept]
          simp only [List.append_assoc, List.cons_append, List.nil_append]

/-- What a run through an item brings about: if it is strict, its lines are there as far as they are
kept, and at most the lines of a list of imports are still waiting. -/
def Kept (cfg : Config) (c : Comment) (strict : Bool) (inc acc : List Text) (below : List Element)
    (item : Item) (stack : List Element) : Prop :=
  ∃ inc' acc' coll', stack = ⟨.module c false, inc', acc', coll'⟩ :: below ∧
    (strict = true → acc' ++ inc' = acc ++ inc ++ item.kept cfg c ∧
      (item.waits = false → inc' = []) ∧ Carried cfg coll')

/-- An item that is decided on leaves nothing behind. -/
theorem kept_of_decided {below : List Element} {item : Item} {stack : List Element}
    {waiting filtered : Bool} {own : List Text}
    (halone : strict = true → Alone (item.drops cfg c) waiting item.lead)
    (hinc : strict = true → waiting = false → inc = [])
    (hfiltered : strict = true → filtered = item.drops cfg c)
    (hown : (strict && !item.drops cfg c) = true → own = item.line :: item.body.kept cfg)
    (h : stack = ⟨.module c false, [], if filtered then acc
      else acc ++ (inc ++ item.lead ++ own), []⟩ :: below) :
    Kept cfg c strict inc acc below item stack := by
  refine ⟨_, _, _, h, fun hstrict => ⟨?_, fun _ => rfl, carried_nil⟩⟩
  rw [List.append_nil, hfiltered hstrict, Item.kept,
    ← accepted_eq _ (halone hstrict) (hinc hstrict)]
  cases hdrops : item.drops cfg c with
  | true => rfl
  | false => rw [hown (by rw [hstrict, hdrops]; rfl)]

theorem kept_oneLine {lead : List Text} {line : Text} {waiting : Bool} (below : List Element)
    (hlayout : (Item.mk lead line .oneLine).Layout)
    (hhandled : (Item.mk lead line .oneLine).Handled cfg c strict waiting)
    (hinc : strict = true → waiting = false → inc = []) (hcoll : strict = true → Carried cfg coll) :
    Kept cfg c strict inc acc below ⟨lead, line, .oneLine⟩
      (processLines cfg (⟨.module c false, inc, acc, coll⟩ :: below) (lead ++ [line])) := by
  obtain ⟨hlead, ⟨hordinary, hupper, hassign⟩, hkind⟩ := hlayout
  have hstep := @processLine_ordinary cfg c (inc ++ lead) acc (noteAll coll lead) line hordinary
  rw [if_pos hupper, typeLine, if_neg (not_not.mpr hassign)] at hstep
  have hjudge : ∀ filtered, ((Element.mk (.module c false) (inc ++ lead ++ [line]) acc
      (noteAll coll lead)).judge filtered).forget =
        ⟨.module c false, [], if filtered then acc else acc ++ (inc ++ lead ++ [line]), []⟩ := by
    intro filtered
    cases filtered with
    | true => rfl
    | false => rfl
  have hstay : (Element.mk (.module c false) (inc ++ lead) acc (noteAll coll lead)).processLine cfg
      line = .stay ⟨.module c false, [], if dropsAlone cfg (noteAll coll lead) then acc
        else acc ++ (inc ++ lead ++ [line]), []⟩ := by
    rw [hstep, ← hjudge]
    rcases hkind with hsequenceOf | ⟨hopens, hbits⟩
    · rw [if_pos hsequenceOf]
    · by_cases hsequenceOf : isSequenceOf (token line 2) (token line 3) = true
      · rw [if_pos hsequenceOf]
      · rw [if_neg hsequenceOf, if_neg (by simp [hopens, hbits])]
  refine kept_of_decided (fun hstrict => (hhandled.1 hstrict).1) hinc
    (fun hstrict => dropsAlone_noteAll (hcoll hstrict) lead) (fun _ => rfl) ?_
  rw [processLines_append, run_lead below hlead, processLines_cons, processLine_of_stay below hstay]
  rfl

theorem not_startsUpper {line : Text} (h : startsLower line = true) : startsUpper line = false := by
  cases line with
  | nil => rfl
  | cons ch line =>
      simp only [startsLower, startsUpper, List.head?_cons, Option.any_some, decide_eq_true_eq,
        decide_eq_false_iff_not, Bool.decide_and, Bool.and_eq_true, Bool.and_eq_false_iff]
        at h ⊢
      right
      exact not_le.mpr (lt_of_lt_of_le (by decide) h.1)

theorem processLine_value {raw : Text} (h : Item.DefinesValue raw) :
    (Element.mk (.module c false) inc acc coll).processLine cfg raw =
      valueLine cfg c ⟨.module c false, inc ++ [raw], acc, coll⟩ raw := by
  rw [processLine_ordinary h.1, not_startsUpper h.2, if_neg (by decide), if_pos h.2]

theorem kept_value {lead : List Text} {line : Text} {waiting : Bool} (below : List Element)
    (hlayout : (Item.mk lead line .value).Layout)
    (hhandled : (Item.mk lead line .value).Handled cfg c strict waiting)
    (hcoll : strict = true → Carried cfg coll) :
    Kept cfg c strict inc acc below ⟨lead, line, .value⟩
      (processLines cfg (⟨.module c false, inc, acc, coll⟩ :: below) (lead ++ [line])) := by
  obtain ⟨hlead, hdefines, hoperation⟩ := hlayout
  have hstep := @processLine_value cfg c (inc ++ lead) acc (noteAll coll lead) line hdefines
  rw [valueLine, if_neg hoperation] at hstep
  rw [processLines_append, run_lead below hlead, processLines_cons]
  cases hfiltered : dropsAlone cfg (noteAll coll lead) with
  | true =>
      -- the line stays in what is not decided on
      rw [if_pos hfiltered] at hstep
      rw [processLine_of_stay below hstep]
      refine ⟨_, _, _, rfl, fun hstrict => ?_⟩
      have hdrops : dropsAlone cfg (noteAll [] lead) = false := hhandled.2 hstrict
      rw [dropsAlone_noteAll (hcoll hstrict), hdrops] at hfiltered
      cases hfiltered
  | false =>
      rw [if_neg (by rw [hfiltered]; decide)] at hstep
      rw [processLine_of_stay below hstep]
      refine ⟨_, _, _, rfl, fun hstrict => ⟨?_, fun _ => rfl, carried_nil⟩⟩
      rw [Item.kept, hhandled.2 hstrict]
      simp [keptLines, Body.kept, Element.accept]

theorem run_operation (below : List Element) {mid : List Text}
    (h : ∀ raw ∈ mid, hasAssignment (szLine raw) = false) :
    processLines cfg (⟨.operation c, inc, acc, []⟩ :: below) mid =
      ⟨.operation c, inc ++ mid, acc, []⟩ :: below := by
  have hrun := @run_stay cfg (.operation c) (fun coll _ => coll) inc acc [] below mid
    fun inc coll raw hraw => by
      simp [Element.processLine, operationLine, h raw hraw, Element.read]
  rwa [List.foldl_fixed] at hrun

/-- The element of the module when a part of it ends that has begun with a line of its own. -/
theorem receive_eq {filtered : Bool} {line : Text} {lines lead : List Text} :
    (Element.mk (.module c false) (inc ++ lead ++ [line]) acc []).receive filtered lines =
      ⟨.module c false, [], if filtered then acc
        else acc ++ (inc ++ lead ++ (line :: lines)), []⟩ := by
  cases filtered with
  | true => rfl
  | false => simp [Element.receive]

theorem kept_operation {lead mid : List Text} {line last : Text} {waiting : Bool}
    (below : List Element) (hlayout : (Item.mk lead line (.operation mid last)).Layout)
    (hhandled : (Item.mk lead line (.operation mid last)).Handled cfg c strict waiting)
    (hinc : strict = true → waiting = false → inc = []) (hcoll : strict = true → Carried cfg coll) :
    Kept cfg c strict inc acc below ⟨lead, line, .operation mid last⟩
      (processLines cfg (⟨.module c false, inc, acc, coll⟩ :: below)
        (lead ++ line :: (mid ++ [last]))) := by
  obtain ⟨hlead, hdefines, hoperation, hmid, hlast⟩ := hlayout
  have hstep := @processLine_value cfg c (inc ++ lead) acc (noteAll coll lead) line hdefines
  rw [valueLine, if_pos hoperation] at hstep
  have hdone : ∀ p : Comment, (Element.mk (.operation p) mid [] []).processLine cfg last =
      .done ((Element.mk (.operation p) (mid ++ [last]) [] []).judge (isFiltered cfg.settings p))
        (isFiltered cfg.settings p) := by
    intro p
    simp only [Element.processLine, operationLine, if_pos hlast, Element.read]
  -- the first line waits in the module, the others in the element of the operation
  refine kept_of_decided (fun hstrict => (hhandled.1 hstrict).1) hinc
    (fun hstrict => dropsWith_noteAll (hcoll hstrict) c lead) (fun _ => rfl) ?_
  rw [processLines_append, run_lead below hlead, processLines_cons, processLine_of_push below hstep,
    processLines_append, Element.new, run_operation _ hmid, processLines_cons, List.nil_append,
    processLine_of_done _ below (hdone _), hand_eq (by
      cases isFiltered cfg.settings (convertCommentList cfg _ c) <;> rfl), dropsWith]
  cases isFiltered cfg.settings (convertCommentList cfg (noteAll coll lead) c) with
  | true => rfl
  | false => exact congrArg (fun el => el :: below) receive_eq

/-- The list of a BIT STRING is never found open, so that its bracket is in a line of its own. -/
theorem opens_of_handled {line : Text} {opening : List Text}
    (h : Opens (Item.opened line) opening)
    (hbits : isBitString (token line 2) (token line 3) = true → opening ≠ []) :
    Opens (token line 3 = ['\x7b']) opening := by
  by_cases hbit : isBitString (token line 2) (token line 3) = true
  · have htoken : (decide (token line 3 = ['\x7b'])) = false := by
      simp only [isBitString, Bool.decide_and, Bool.and_eq_true, decide_eq_true_eq] at hbit
      rw [hbit.2]
      decide
    rw [htoken]
    rw [Item.opened, if_pos hbit] at h
    cases hopened : decide ('\x7b' ∈ szLine line) with
    | true =>
        rw [hopened] at h
        exact absurd h (hbits hbit)
    | false =>
        rw [hopened] at h
        exact h
  · rw [Item.opened, if_neg hbit] at h
    exact h

theorem not_isSequenceOf {type₁ type₂ : Text}
    (h : opensType type₁ type₂ = true ∨ isBitString type₁ type₂ = true) :
    isSequenceOf type₁ type₂ = false := by
  rw [Bool.eq_false_iff]
  intro hof
  simp only [isSequenceOf, opensType, isBitString, decide_eq_true_eq, Bool.decide_and,
    Bool.and_eq_true] at hof h
  rw [hof.1, hof.2] at h
  exact absurd h (by decide)

theorem kept_type {lead opening tail : List Text} {line close : Text} {members : Members}
    {waiting : Bool} (below : List Element)
    (hlayout : (Item.mk lead line (.type opening members tail close)).Layout)
    (hhandled : (Item.mk lead line (.type opening members tail close)).Handled cfg c strict waiting)
    (hinc : strict = true → waiting = false → inc = []) (hcoll : strict = true → Carried cfg coll) :
    Kept cfg c strict inc acc below ⟨lead, line, .type opening members tail close⟩
      (processLines cfg (⟨.module c false, inc, acc, coll⟩ :: below)
        (lead ++ line :: (opening ++ (members.lines ++ (tail ++ [close]))))) := by
  obtain ⟨hlead, ⟨hordinary, hupper, hassign⟩, hkind, hopening, hmembers, hcloses⟩ := hlayout
  obtain ⟨halone, hbits, hhandledMembers, hnonempty, hfrontClose⟩ := hhandled
  have hstep := @processLine_ordinary cfg c (inc ++ lead) acc (noteAll coll lead) line hordinary
  rw [if_pos hupper, typeLine, if_neg (not_not.mpr hassign),
    if_neg (by rw [not_isSequenceOf hkind]; decide), if_pos hkind] at hstep
  obtain ⟨content, hbody, hcontent⟩ := run_body
    (Element.mk (.module c false) (inc ++ lead ++ [line]) acc []) below
    (opens_of_handled hopening hbits) hcloses hnonempty hfrontClose
    (@run_members cfg (convertCommentList cfg (noteAll coll lead) c) c opening [] members _
      (!opening.isEmpty) false [] _ hmembers hhandledMembers (fun _ => isEmpty_of_not_waiting)
      nofun)
  rw [receive_eq] at hbody
  -- inside of a filtered type the members need not be strict, as their lines go with it
  refine kept_of_decided (fun hstrict => (halone hstrict).1) hinc
    (fun hstrict => dropsWith_noteAll (hcoll hstrict) c lead)
    (fun hstrict => congrArg (List.cons line) (hcontent hstrict)) ?_
  rw [processLines_append, run_lead below hlead, processLines_cons, processLine_of_push below hstep]
  exact hbody

theorem kept_imports {lead : List Text} {line : Text} (below : List Element)
    (hlayout : (Item.mk lead line .imports).Layout) {waiting : Bool}
    (hhandled : (Item.mk lead line .imports).Handled cfg c strict waiting)
    (hcoll : strict = true → Carried cfg coll) :
    Kept cfg c strict inc acc below ⟨lead, line, .imports⟩
      (processLines cfg (⟨.module c false, inc, acc, coll⟩ :: below) (lead ++ [line])) := by
  obtain ⟨hlead, hend, himport, hsemicolon⟩ := hlayout
  have hstep := @processLine_import cfg c false (inc ++ lead) acc (noteAll coll lead) line hend
    himport
  rw [decide_eq_false (not_not.mpr hsemicolon)] at hstep
  refine ⟨inc ++ lead ++ [line], acc, noteAll coll lead, ?_, fun hstrict => ⟨?_, nofun,
    carried_noteAll (hcoll hstrict) fun raw hraw _ => hhandled.2 hstrict raw hraw⟩⟩
  · rw [processLines_append, run_lead below hlead, processLines_cons,
      processLine_of_stay below hstep]
    rfl
  · simp [Item.kept, Item.drops, keptLines, Body.kept]

theorem kept_importList {lead mid : List Text} {line last : Text} (below : List Element)
    (hlayout : (Item.mk lead line (.importList mid last)).Layout) {waiting : Bool}
    (hhandled : (Item.mk lead line (.importList mid last)).Handled cfg c strict waiting)
    (hcoll : strict = true → Carried cfg coll) :
    Kept cfg c strict inc acc below ⟨lead, line, .importList mid last⟩
      (processLines cfg (⟨.module c false, inc, acc, coll⟩ :: below)
        (lead ++ line :: (mid ++ [last]))) := by
  obtain ⟨hlead, hend, himport, hsemicolon, hmid, hlast, hlastSemicolon⟩ := hlayout
  have huntagged : strict = true →
      (∀ raw ∈ lead, szLine raw = [] → Untagged (szComment raw)) ∧
        ∀ raw ∈ mid, szLine raw = [] → Untagged (szComment raw) :=
    fun hstrict => List.forall_mem_append.mp (hhandled.2 hstrict)
  have hstep := @processLine_import cfg c false (inc ++ lead) acc (noteAll coll lead) line hend
    himport
  rw [decide_eq_true hsemicolon] at hstep
  obtain ⟨inc', acc', coll', hrun, hkept, hcarried⟩ :=
    @run_importMid cfg c strict (inc ++ lead ++ [line]) acc (noteAll coll lead) below mid hmid
      (fun hstrict => (huntagged hstrict).2)
      fun hstrict => carried_noteAll (hcoll hstrict) (huntagged hstrict).1
  -- each line that is not empty accepts what waits, so that nothing waits behind the last
  have hstepLast := @processLine_importLine cfg c inc' acc' coll' last hlast
  rw [decide_eq_false (not_not.mpr hlastSemicolon)] at hstepLast
  refine ⟨[], acc' ++ (inc' ++ [last]), coll', ?_, fun hstrict =>
    ⟨?_, fun _ => rfl, hcarried hstrict⟩⟩
  · rw [processLines_append, run_lead below hlead, processLines_cons,
      processLine_of_stay below hstep, processLines_append, hrun, processLines_cons,
      processLine_of_stay below hstepLast]
    rfl
  · rw [List.append_nil, ← List.append_assoc, hkept]
    simp [Item.kept, Item.drops, keptLines, Body.kept]

theorem run_item (item : Item) {waiting : Bool} (below : List Element) (hlayout : item.Layout)
    (hhandled : item.Handled cfg c strict waiting)
    (hinc : strict = true → waiting = false → inc = []) (hcoll : strict = true → Carried cfg coll) :
    Kept cfg c strict inc acc below item
      (processLines cfg (⟨.module c false, inc, acc, coll⟩ :: below) item.lines) := by
  obtain ⟨lead, line, body⟩ := item
  cases body with
  | imports => exact kept_imports below hlayout hhandled hcoll
  | importList mid last => exact kept_importList below hlayout hhandled hcoll
  | oneLine => exact kept_oneLine below hlayout hhandled hinc hcoll
  | value => exact kept_value below hlayout hhandled hcoll
  | operation mid last => exact kept_operation below hlayout hhandled hinc hcoll
  | shortOperation => exact hhandled.2.elim
  | type opening members tail close => exact kept_type below hlayout hhandled hinc hcoll
  | bitString => exact hhandled.2.elim

theorem run_items {items : List Item} {waiting : Bool} (below : List Element)
    (hlayout : ∀ item ∈ items, item.Layout) (hhandled : HandledItems cfg c strict items waiting)
    (hinc : strict = true → waiting = false → inc = []) (hcoll : strict = true → Carried cfg coll) :
    ∃ inc' acc' coll', processLines cfg (⟨.module c false, inc, acc, coll⟩ :: below)
        (items.flatMap Item.lines) = ⟨.module c false, inc', acc', coll'⟩ :: below ∧
      (strict = true → acc' ++ inc' = acc ++ inc ++ items.flatMap (Item.kept cfg c)) := by
  induction items generalizing inc acc coll waiting with
  | nil => exact ⟨inc, acc, coll, rfl, fun _ => (List.append_nil _).symm⟩
  | cons item items ih =>
      obtain ⟨hitem, hitems⟩ := List.forall_mem_cons.mp hlayout
      obtain ⟨inc₁, acc₁, coll₁, hrun₁, hkept₁⟩ :=
        @run_item cfg c strict inc acc coll item waiting below hitem hhandled.1 hinc hcoll
      obtain ⟨inc', acc', coll', hrun, hkept⟩ :=
        @ih inc₁ acc₁ coll₁ item.waits hitems hhandled.2 (fun hstrict => (hkept₁ hstrict).2.1)
          fun hstrict => (hkept₁ hstrict).2.2
      refine ⟨inc', acc', coll', ?_, fun hstrict => ?_⟩
      · rw [List.flatMap_cons, processLines_append, hrun₁, hrun]
      · rw [hkept hstrict, (hkept₁ hstrict).1, List.flatMap_cons,
          List.append_assoc _ (item.kept cfg c)]

end Module

/-! ### Files -/

section File

variable {inc acc coll : List Text}

theorem run_outside {lines : List Text} (h : ∀ raw ∈ lines, IsOutside raw) :
    processLines cfg [⟨.file, inc, acc, coll⟩] lines =
      [⟨.file, inc ++ lines, acc, noteAll coll lines⟩] := by
  rw [noteAll, List.foldl_filter]
  refine run_stay [] fun inc coll raw hraw => ?_
  by_cases hempty : szLine raw = []
  · simp [Element.processLine, fileLine, hempty, Element.read, Element.note]
  · have hbegin := (h raw hraw).resolve_left hempty
    simp only [Element.processLine, fileLine, hbegin, Bool.false_eq_true, if_false, Element.read,
      hempty, decide_false]

theorem processLine_begin {raw : Text} (hne : szLine raw ≠ [])
    (hbegin : "BEGIN".toList.isSuffixOf (szLine raw) = true) :
    (Element.mk .file inc acc coll).processLine cfg raw =
      .push ⟨.file, inc ++ [raw], acc, []⟩
        (.new (.module (convertCommentList cfg coll .none) false)) := by
  simp only [Element.processLine, fileLine, if_neg hne, if_pos hbegin, Element.read,
    Element.forget]

/-- END hands the lines of a module over to its file. A filtered module clears the file. -/
theorem processLine_end {c : Comment} {raw : Text} (file : Element)
    (hend : szLine raw = "END".toList) :
    processLine cfg [⟨.module c false, inc, acc, coll⟩, file] raw =
      [⟨file.kind, [], if isFiltered cfg.settings c then []
        else file.filtered ++ file.increment ++ (acc ++ (inc ++ [raw])), file.collected⟩] := by
  have hstep : (Element.mk (.module c false) inc acc coll).processLine cfg raw =
      .done ((Element.mk (.module c false) (inc ++ [raw]) acc coll).judge
        (isFiltered cfg.settings c)) (isFiltered cfg.settings c) := by
    simp only [Element.processLine, moduleLine, if_pos hend, Element.read]
  rw [processLine_of_done file [] hstep, hand]
  cases hfiltered : isFiltered cfg.settings c with
  | true => simp [Element.judge, Element.isFilteredModule, hfiltered, Element.drop]
  | false =>
      simp [Element.judge, Element.isFilteredModule, hfiltered, Element.drop, Element.accept]

theorem run_module (m : Module) (hlayout : m.Layout)
    (hlead : m.drops cfg = true → acc = [] ∧ ∀ raw ∈ m.lead, isCommentLine raw = true ∧
      "@clear".toList.isPrefixOf (szComment raw) = false)
    (hhandled : HandledItems cfg (m.comment cfg) (!m.drops cfg) m.items false) :
    processLines cfg [⟨.file, [], acc, []⟩] m.lines =
      [⟨.file, [], acc ++ m.kept cfg, []⟩] := by
  obtain ⟨hempty, hhead, hne, hbegin, hitems, htail, hend⟩ := hlayout
  have houtside : ∀ raw ∈ m.lead ++ m.head, IsOutside raw :=
    List.forall_mem_append.mpr ⟨fun raw hraw => Or.inl (hempty raw hraw), hhead⟩
  obtain ⟨inc', acc', coll', hrun, hkept⟩ :=
    @run_items cfg (m.comment cfg) (!m.drops cfg) [] [] [] m.items false
      [⟨.file, m.lead ++ m.head ++ [m.beginLine], acc, []⟩] hitems hhandled (fun _ _ => rfl)
      fun _ => carried_nil
  rw [Module.lines, processLines_append, run_outside houtside, processLines_cons,
    processLine_of_push [] (processLine_begin hne hbegin), processLines_append]
  refine (congrArg (fun stack => processLines cfg stack (m.tail ++ [m.endLine])) hrun).trans ?_
  rw [processLines_append, run_lead _ htail, processLines_cons, processLine_end _ hend]
  -- a filtered module clears a file that has accepted nothing yet
  cases hdrops : m.drops cfg with
  | true =>
      have hfiltered : isFiltered cfg.settings (m.comment cfg) = true := hdrops
      obtain ⟨rfl, hcomments⟩ := hlead hdrops
      rw [Module.kept, hdrops, hfiltered, keptLines, if_pos rfl, if_pos rfl,
        others_eq_nil fun raw hraw => (hcomments raw hraw).1]
      rfl
  | false =>
      have hfiltered : isFiltered cfg.settings (m.comment cfg) = false := hdrops
      have hlines : acc' ++ (inc' ++ m.tail ++ [m.endLine]) =
          m.items.flatMap (Item.kept cfg (m.comment cfg)) ++ (m.tail ++ [m.endLine]) := by
        rw [List.append_assoc inc', ← List.append_assoc acc', hkept (by rw [hdrops]; rfl)]
        rfl
      rw [Module.kept, hdrops, hfiltered, hlines]
      simp [keptLines, processLines]

theorem run_modules {modules : List Module} (hlayout : ∀ m ∈ modules, m.Layout)
    (hhandled : HandledModules cfg modules acc) :
    processLines cfg [⟨.file, [], acc, []⟩] (modules.flatMap Module.lines) =
      [⟨.file, [], acc ++ modules.flatMap (Module.kept cfg), []⟩] := by
  induction modules generalizing acc with
  | nil => rw [List.flatMap_nil, List.flatMap_nil, List.append_nil]; rfl
  | cons m modules ih =>
      obtain ⟨hm, hmodules⟩ := List.forall_mem_cons.mp hlayout
      obtain ⟨hlead, hitems, hrest⟩ := hhandled
      rw [List.flatMap_cons, processLines_append, run_module m hm hlead hitems, ih hmodules hrest,
        List.flatMap_cons, List.append_assoc]

end File

/-- Private symbols are left out. -/
def noPrivate : Config := ⟨⟨false, 0⟩, fun _ => 0⟩

/-- A file with one module and these items. -/
def fileOf (items : List Item) : File where
  modules := [{
    lead := []
    head := []
    beginLine := "M DEFINITIONS ::= BEGIN".toList
    items := items
    tail := []
    endLine := "END".toList }]
  trailing := []

/-- A private type, and a type with a private member behind others. -/
def privateParts : File :=
  fileOf [⟨["-- @private".toList], "T ::= INTEGER".toList, .oneLine⟩,
    ⟨[], "U ::= SEQUENCE \x7b".toList, .type []
      (.sequenceOf [] "a SEQUENCE OF INTEGER,".toList (.plain [] "b INTEGER,".toList
        (.plain ["-- @private".toList] "c INTEGER".toList .nil))) []
      "\x7d".toList⟩]

/-- A type whose bracket is in a line of its own and whose first member is private. -/
def privateFirst : File :=
  fileOf [⟨[], "T ::= SEQUENCE".toList, .type ["\x7b".toList]
    (.plain ["-- @private".toList] "a INTEGER,".toList (.plain [] "b INTEGER".toList .nil)) []
    "\x7d".toList⟩]

end Esnacc.Compiler.CommentParser
