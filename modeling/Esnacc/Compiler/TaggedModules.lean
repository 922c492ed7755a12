import Mathlib
import Esnacc.Compiler.CommentTagRuns
import Esnacc.Compiler.FilteredFiles

/-!
Runs through the items of a module and through a file: the entries of all types, members and
operations, and the tags that they have.
-/

namespace Esnacc.Compiler.CommentParser.CommentMaps

variable {S : Type} {r : Reader S} {szModuleName : Text}

/-! ### Lines of a module -/

section Module

variable {modComment : TagData S} {wait : Bool} {coll : List Text}

theorem run_lead (below : List (Element S)) (g : Comments S) {lead : List Text}
    (h : ∀ raw ∈ lead, szLine raw = []) :
    processLines r szModuleName (⟨.module modComment wait, coll⟩ :: below, g) lead =
      (⟨.module modComment wait, noteAll coll lead⟩ :: below, g) := by
  rw [noteAll, List.foldl_filter]
  refine run_stay below g fun coll raw hraw => ?_
  simp [Element.processLine, moduleLine, h raw hraw]

theorem processLine_ordinary (g : Comments S) {raw : Text} (h : IsOrdinary raw) :
    (Element.mk (.module modComment false) coll).processLine r szModuleName g raw =
      if startsUpper (szLine raw) then typeLine r szModuleName g modComment coll raw
      else if startsLower (szLine raw) then valueLine r g modComment coll raw
      else .stay ⟨.module modComment false, coll⟩ g := by
  have himport : ¬ (token raw 0 = "IMPORTS".toList ∨ token raw 0 = "EXPORTS".toList) :=
    h.not_import
  simp only [Element.processLine, moduleLine, if_neg h.not_end, if_neg h.not_empty,
    if_neg himport, Bool.false_eq_true, if_false]

theorem processLine_import (g : Comments S) {raw : Text} (hend : szLine raw ≠ "END".toList)
    (h : isImport raw) :
    (Element.mk (.module modComment wait) coll).processLine r szModuleName g raw =
      .stay ⟨.module modComment (';' ∉ szLine raw), coll⟩ g := by
  have hempty : szLine raw ≠ [] := by
    intro hempty
    rw [isImport, token, tokens, hempty] at h
    exact absurd h (by decide)
  have himport : token raw 0 = "IMPORTS".toList ∨ token raw 0 = "EXPORTS".toList := h
  simp only [Element.processLine, moduleLine, if_neg hend, if_neg hempty, if_pos himport]

/-- A line of a list of imports that has not ended. -/
theorem processLine_importLine (g : Comments S) {raw : Text} (h : IsOrdinary raw) :
    (Element.mk (.module modComment true) coll).processLine r szModuleName g raw =
      .stay ⟨.module modComment (';' ∉ szLine raw), coll⟩ g := by
  have himport : ¬ (token raw 0 = "IMPORTS".toList ∨ token raw 0 = "EXPORTS".toList) :=
    h.not_import
  simp only [Element.processLine, moduleLine, if_neg h.not_end, if_neg h.not_empty,
    if_neg himport, if_true]

theorem run_importMid (below : List (Element S)) (g : Comments S) {mid : List Text}
    (h : ∀ raw ∈ mid, szLine raw = [] ∨ IsOrdinary raw ∧ ';' ∉ szLine raw) :
    processLines r szModuleName (⟨.module modComment true, coll⟩ :: below, g) mid =
      (⟨.module modComment true, noteAll coll mid⟩ :: below, g) := by
  rw [noteAll, List.foldl_filter]
  refine run_stay below g fun coll raw hraw => ?_
  rcases h raw hraw with hempty | ⟨hordinary, hsemicolon⟩
  · simp [Element.processLine, moduleLine, hempty]
  · rw [processLine_importLine g hordinary, decide_eq_true hsemicolon,
      decide_eq_false hordinary.not_empty]
    rfl

theorem run_operation (below : List (Element S)) (g : Comments S) {name : Text} {c : TagData S}
    {mid : List Text} (h : ∀ raw ∈ mid, hasAssignment (szLine raw) = false) :
    processLines r szModuleName (⟨.operation name c, []⟩ :: below, g) mid =
      (⟨.operation name c, []⟩ :: below, g) := by
  have hrun := @run_stay S r szModuleName (.operation name c) (fun coll _ => coll) [] below g mid
    fun coll raw hraw => by simp [Element.processLine, h raw hraw]
  rwa [List.foldl_fixed] at hrun

/-! ### Items -/

/-- What a run through an item brings about. -/
def RunsItem (r : Reader S) (szModuleName : Text) (modComment : TagData S) (item : Item) : Prop :=
  ∀ (coll pending : List Text) (below : List (Element S)) (g : Comments S), Same coll pending →
    ∃ coll', Same coll' (item.left pending) ∧
      processLines r szModuleName (⟨.module modComment false, coll⟩ :: below, g) item.lines =
        (⟨.module modComment false, coll'⟩ :: below,
          g.add szModuleName (item.types r modComment pending)
            (item.operations r modComment pending))

/-- The comment in the line of a definition is not collected, so that it must not have a tag. -/
theorem same_definition {coll pending lead : List Text} {line : Text} (h : Same coll pending)
    (hline : isTagged (szComment line) = false) :
    Same (noteAll coll lead) (definitionComments pending lead line) :=
  (h.noteAll lead).trans (same_collect hline _).symm

theorem run_imports {lead : List Text} {line : Text} (h : (Item.mk lead line .imports).Layout) :
    RunsItem r szModuleName modComment ⟨lead, line, .imports⟩ := by
  intro coll pending below g hsame
  obtain ⟨hlead, hend, himport, hsemicolon⟩ := h
  have hstep := @processLine_import S r szModuleName modComment false (noteAll coll lead) g line
    hend himport
  rw [decide_eq_false (fun hno => hno hsemicolon)] at hstep
  refine ⟨noteAll coll lead, hsame.noteAll lead, ?_⟩
  rw [Item.lines, processLines_append, run_lead below g hlead, processLines_cons,
    processLine_of_stay below hstep]
  rfl

theorem run_importList {lead mid : List Text} {line last : Text}
    (h : (Item.mk lead line (.importList mid last)).Layout) :
    RunsItem r szModuleName modComment ⟨lead, line, .importList mid last⟩ := by
  intro coll pending below g hsame
  obtain ⟨hlead, hend, himport, hsemicolon, hmid, hlast, hclose⟩ := h
  have hstep := @processLine_import S r szModuleName modComment false (noteAll coll lead) g line
    hend himport
  rw [decide_eq_true hsemicolon] at hstep
  have hlastStep := @processLine_importLine S r szModuleName modComment
    (noteAll (noteAll coll lead) mid) g last hlast
  rw [decide_eq_false (fun hno => hno hclose)] at hlastStep
  have hfrom : noteAll (noteAll coll lead) mid = noteAll coll (lead ++ mid) := by
    rw [noteAll, noteAll, noteAll, List.filter_append, List.foldl_append]
  refine ⟨noteAll coll (lead ++ mid), hsame.noteAll _, ?_⟩
  rw [Item.lines, processLines_append, run_lead below g hlead, processLines_cons,
    processLine_of_stay below hstep, Body.lines, processLines_append, run_importMid below g hmid,
    processLines_cons, processLine_of_stay below hlastStep, hfrom]
  rfl

theorem run_oneLine {lead : List Text} {line : Text} (h : (Item.mk lead line .oneLine).Layout)
    (huntagged : isTagged (szComment line) = false) :
    RunsItem r szModuleName modComment ⟨lead, line, .oneLine⟩ := by
  intro coll pending below g hsame
  obtain ⟨hlead, ⟨hordinary, hupper, hassign⟩, htype⟩ := h
  have hassign' : ¬ token line 1 ≠ "::=".toList := fun hno => hno hassign
  have hdefinition : Same (noteAll coll lead) (definitionComments pending lead line) :=
    same_definition hsame huntagged
  have hcomment := hdefinition.convert r (.none r)
  have hstep := @processLine_ordinary S r szModuleName modComment (noteAll coll lead) g line
    hordinary
  rw [if_pos hupper, typeLine, if_neg hassign', hcomment] at hstep
  have hline : (Element.mk (.module modComment false) (noteAll coll lead)).processLine r
      szModuleName g line = .stay ⟨.module modComment false, []⟩
        (g.setSequence szModuleName (token line 0)
          ⟨convertCommentList r (definitionComments pending lead line) (.none r), []⟩) := by
    rw [hstep]
    by_cases hof : isSequenceOf (token line 2) (token line 3) = true
    · rw [if_pos hof]
    · obtain ⟨hopens, hbits⟩ := htype.resolve_left hof
      have hplain : ¬ (opensType (token line 2) (token line 3) = true ∨
          isBitString (token line 2) (token line 3) = true) := by
        rw [hopens, hbits]
        exact fun hno => hno.elim Bool.false_ne_true Bool.false_ne_true
      rw [if_neg hof, if_neg hplain]
  refine ⟨[], .refl [], ?_⟩
  rw [Item.lines, processLines_append, run_lead below g hlead, processLines_cons,
    processLine_of_stay below hline]
  rfl

theorem processLine_value (g : Comments S) {raw : Text} (h : Item.DefinesValue raw) :
    (Element.mk (.module modComment false) coll).processLine r szModuleName g raw =
      valueLine r g modComment coll raw := by
  rw [processLine_ordinary g h.1, not_startsUpper h.2, if_neg (by decide), if_pos h.2]

theorem run_value {lead : List Text} {line : Text} (h : (Item.mk lead line .value).Layout) :
    RunsItem r szModuleName modComment ⟨lead, line, .value⟩ := by
  intro coll pending below g hsame
  obtain ⟨hlead, hdefines, hoperation⟩ := h
  have hstep := @processLine_value S r szModuleName modComment (noteAll coll lead) g line hdefines
  rw [valueLine, if_neg hoperation] at hstep
  refine ⟨[], .refl [], ?_⟩
  rw [Item.lines, processLines_append, run_lead below g hlead, processLines_cons,
    processLine_of_stay below hstep]
  rfl

theorem run_operationItem {lead mid : List Text} {line last : Text}
    (h : (Item.mk lead line (.operation mid last)).Layout)
    (hhandled : ItemHandled ⟨lead, line, .operation mid last⟩) :
    RunsItem r szModuleName modComment ⟨lead, line, .operation mid last⟩ := by
  intro coll pending below g hsame
  obtain ⟨hlead, hdefines, hoperation, hmid, hlast⟩ := h
  obtain ⟨huntagged, hmidUntagged⟩ := hhandled
  have hdefinition : Same (noteAll coll lead) (definitionComments pending lead line) :=
    same_definition hsame huntagged
  have hcomment := hdefinition.convert r (.inherit r modComment)
  have hstep := @processLine_value S r szModuleName modComment (noteAll coll lead) g line hdefines
  rw [valueLine, if_pos hoperation, hcomment] at hstep
  have hlastStep (c : TagData S) : (Element.mk (.operation (token line 0) c) []).processLine r
      szModuleName g last = .done (g.setOperation szModuleName (token line 0) c) := by
    simp only [Element.processLine, if_pos hlast]
  refine ⟨[], (same_collectAll hmidUntagged []).symm, ?_⟩
  rw [Item.lines, processLines_append, run_lead below g hlead, processLines_cons,
    processLine_of_push below hstep, Body.lines, processLines_append, run_operation _ g hmid,
    processLines_cons, processLine_of_done _ (hlastStep _)]
  rfl

theorem run_type {lead opening tail : List Text} {line close : Text} {members : Members}
    (h : (Item.mk lead line (.type opening members tail close)).Layout)
    (hhandled : ItemHandled ⟨lead, line, .type opening members tail close⟩) :
    RunsItem r szModuleName modComment ⟨lead, line, .type opening members tail close⟩ := by
  intro coll pending below g hsame
  obtain ⟨hlead, ⟨hordinary, hupper, hassign⟩, htype, hopens, hmembers, hcloses⟩ := h
  obtain ⟨huntagged, hbits, hinner, hbody⟩ := hhandled
  have hassign' : ¬ token line 1 ≠ "::=".toList := fun hno => hno hassign
  have hdefinition : Same (noteAll coll lead) (definitionComments pending lead line) :=
    same_definition hsame huntagged
  have hcomment := hdefinition.convert r (.inherit r modComment)
  have hstep := @processLine_ordinary S r szModuleName modComment (noteAll coll lead) g line
    hordinary
  rw [if_pos hupper, typeLine, if_neg hassign', not_isSequenceOf htype, if_neg (by decide),
    if_pos htype, newSequence, hcomment] at hstep
  have hruns : RunsMembers r szModuleName members := run_members hmembers
  have hrun := run_body hruns hinner (opens_of_handled hopens hbits) hcloses hbody
    (token line 0)
    (convertCommentList r (definitionComments pending lead line) (.inherit r modComment)) modComment
    (⟨.module modComment false, []⟩ :: below) g
  refine ⟨[], (same_closeLeft (same_left hinner) hbody).symm, ?_⟩
  rw [Item.lines, processLines_append, run_lead below g hlead, processLines_cons,
    processLine_of_push below hstep, Body.lines, hrun]
  rfl

theorem run_item {item : Item} (hlayout : item.Layout) (hhandled : ItemHandled item) :
    RunsItem r szModuleName modComment item := by
  obtain ⟨lead, line, body⟩ := item
  cases body with
  | imports => exact run_imports hlayout
  | importList mid last => exact run_importList hlayout
  | oneLine => exact run_oneLine hlayout hhandled
  | value => exact run_value hlayout
  | operation mid last => exact run_operationItem hlayout hhandled
  | type opening members tail close => exact run_type hlayout hhandled
  | shortOperation | bitString => exact False.elim hhandled

theorem run_items {items : List Item} (hlayout : ∀ item ∈ items, item.Layout)
    (hhandled : ∀ item ∈ items, ItemHandled item) {pending : List Text} (hsame : Same coll pending)
    (below : List (Element S)) (g : Comments S) :
    ∃ coll', processLines r szModuleName (⟨.module modComment false, coll⟩ :: below, g)
      (items.flatMap Item.lines) = (⟨.module modComment false, coll'⟩ :: below,
        g.add szModuleName (overItems (Item.types r modComment) items pending)
          (overItems (Item.operations r modComment) items pending)) := by
  induction items generalizing coll pending g with
  | nil => exact ⟨coll, rfl⟩
  | cons item items ih =>
      rw [List.forall_mem_cons] at hlayout hhandled
      have hitem : RunsItem r szModuleName modComment item := run_item hlayout.1 hhandled.1
      obtain ⟨coll', hleft, hrun⟩ := hitem coll pending below g hsame
      obtain ⟨coll'', hrest⟩ := ih hlayout.2 hhandled.2 hleft (g.add szModuleName
        (item.types r modComment pending) (item.operations r modComment pending))
      refine ⟨coll'', ?_⟩
      rw [List.flatMap_cons, processLines_append, hrun, hrest, Comments.add_add, overItems,
        overItems]

end Module

/-! ### Files -/

theorem run_outside {coll : List Text} (g : Comments S) {lines : List Text}
    (h : ∀ raw ∈ lines, IsOutside raw) :
    processLines r szModuleName ([⟨.file, coll⟩], g) lines =
      ([⟨.file, noteAll coll lines⟩], g) := by
  rw [noteAll, List.foldl_filter]
  refine run_stay [] g fun coll raw hraw => ?_
  by_cases hempty : szLine raw = []
  · simp [Element.processLine, fileLine, hempty]
  · have hbegin := (h raw hraw).resolve_left hempty
    simp only [Element.processLine, fileLine, hbegin, Bool.false_eq_true, if_false, hempty,
      decide_false]

/-- The maps get the entries that the layout says, and no others. -/
theorem parse_module {m : Module} (hlayout : m.Layout) (hhandled : ModuleHandled r m)
    {trailing : List Text} (htrailing : ∀ raw ∈ trailing, IsOutside raw) (g : Comments S) :
    parseFileForComments r szModuleName g (m.lines ++ trailing) =
      (g.add szModuleName (moduleTypes r m) (moduleOperations r m)).setModule szModuleName
        (moduleComment r m) := by
  obtain ⟨hempty, hhead, hne, hbegin, hitems, htail, hend⟩ := hlayout
  have houtside : ∀ raw ∈ m.lead ++ m.head, IsOutside raw :=
    List.forall_mem_append.mpr ⟨fun raw hraw => Or.inl (hempty raw hraw), hhead⟩
  have hstart : (Element.mk .file (noteAll [] (m.lead ++ m.head))).processLine r szModuleName g
      m.beginLine =
        .push ⟨.file, []⟩ ⟨.module (moduleComment r m) false, []⟩ g := by
    simp only [Element.processLine, fileLine, if_neg hne, if_pos hbegin]
    rfl
  obtain ⟨coll', hrun⟩ := @run_items S r szModuleName (moduleComment r m) [] m.items hitems
    hhandled.items [] (.refl []) [⟨.file, []⟩] g
  have hstop (coll : List Text) (g : Comments S) :
      (Element.mk (.module (moduleComment r m) false) coll).processLine r szModuleName g m.endLine =
        .done (g.setModule szModuleName (moduleComment r m)) := by
    simp only [Element.processLine, moduleLine, if_pos hend]
  rw [parseFileForComments, Module.lines, processLines_append, processLines_append,
    run_outside g houtside, processLines_cons, processLine_of_push [] hstart, processLines_append,
    hrun, processLines_append, run_lead _ _ htail, processLines_cons,
    processLine_of_done _ (hstop _ _)]
  exact congrArg Prod.snd (run_outside _ htrailing)

theorem lookup_of_nodup {V : Type} {xs : List (Text × V)} (h : (xs.map Prod.fst).Nodup)
    {k : Text} {v : V} (hmem : (k, v) ∈ xs) (ys : List (Text × V)) :
    (xs.reverse ++ ys).lookup k = some v := by
  have hforward {xs : List (Text × V)} (h : (xs.map Prod.fst).Nodup) (hmem : (k, v) ∈ xs) :
      (xs ++ ys).lookup k = some v := by
    induction xs with
    | nil => exact absurd hmem List.not_mem_nil
    | cons x xs ih =>
        rw [List.map_cons, List.nodup_cons] at h
        rw [List.cons_append, List.lookup_cons]
        rcases List.mem_cons.mp hmem with rfl | hmem
        · rw [beq_self_eq_true]
        · have hne : k ≠ x.1 := by
            rintro rfl
            exact h.1 (List.mem_map.mpr ⟨_, hmem, rfl⟩)
          rw [beq_eq_false_iff_ne.mpr hne]
          exact ih h.2 hmem
  refine hforward ?_ (List.mem_reverse.mpr hmem)
  rw [List.map_reverse]
  exact List.nodup_reverse.mpr h

theorem strKey_injective (szModuleName : Text) : Function.Injective (strKey szModuleName) :=
  fun _ _ h => List.append_cancel_left h

theorem lookup_key {V β : Type} {xs : List β} {name : β → Text} (h : (xs.map name).Nodup) {x : β}
    (hmem : x ∈ xs) (value : β → V) (ys : List (Text × V)) :
    ((xs.map fun x => (strKey szModuleName (name x), value x)).reverse ++ ys).lookup
      (strKey szModuleName (name x)) = some (value x) := by
  have hin : (strKey szModuleName (name x), value x) ∈
      xs.map fun x => (strKey szModuleName (name x), value x) := List.mem_map.mpr ⟨x, hmem, rfl⟩
  refine lookup_of_nodup ?_ hin ys
  have hkeys := h.map (strKey_injective szModuleName)
  rw [List.map_map] at hkeys ⊢
  exact hkeys

/-- A reader for which no date counts. -/
def plainReader : Reader Unit := ⟨fun _ => 0, (), fun _ _ => (), fun _ _ => (), fun _ => true⟩

def emptyComments : Comments Unit := ⟨[], [], []⟩

/-- A module with these items. -/
def moduleOf (items : List Item) : Module where
  lead := []
  head := []
  beginLine := "M DEFINITIONS ::= BEGIN".toList
  items := items
  tail := []
  endLine := "END".toList

/-- An inline type in a type, and an operation. -/
def nested : Module :=
  moduleOf [⟨["-- @private".toList], "T ::= SEQUENCE \x7b".toList, .type []
      (.sequenceOf [] "a SEQUENCE OF INTEGER,".toList (.inline ["".toList, "-- @linked E".toList]
        "b CHOICE \x7b".toList [] (.plain [] "c INTEGER -- @private".toList .nil) [] "\x7d".toList
          .nil)) [] "\x7d".toList⟩,
    ⟨["-- @private".toList], "op OPERATION".toList, .operation [] "::= 1".toList⟩]

/-- A comment behind a SEQUENCE OF member. -/
def swallowed : Module :=
  moduleOf [⟨[], "T ::= SEQUENCE \x7b".toList, .type []
    (.sequenceOf [] "a SEQUENCE OF INTEGER,".toList
      (.plain ["-- @private".toList] "b INTEGER".toList .nil)) [] "\x7d".toList⟩]

end Esnacc.Compiler.CommentParser.CommentMaps
