import Mathlib
import Esnacc.Compiler.CommentTags

/-!
Runs of the parser for comments through a module: the maps get the entries that the layout says.
What is collected has the same tags as what is in front of the next element, though it may lack
comments without tags.
-/

namespace Esnacc.Compiler.CommentParser.CommentMaps

variable {S : Type} {r : Reader S} {szModuleName : Text}

/-! ### The maps -/

/-- The maps with the entries of some more types and operations. -/
def Comments.add (szModuleName : Text) (g : Comments S) (ts : List (TypeTags S))
    (os : List (Text × TagData S)) : Comments S where
  mapModules := g.mapModules
  mapSequences :=
    (ts.map fun t => (strKey szModuleName t.name, t.comment)).reverse ++ g.mapSequences
  mapOperations := (os.map fun o => (strKey szModuleName o.1, o.2)).reverse ++ g.mapOperations

theorem Comments.add_add (g : Comments S) (ts ts' : List (TypeTags S))
    (os os' : List (Text × TagData S)) :
    (g.add szModuleName ts os).add szModuleName ts' os' =
      g.add szModuleName (ts ++ ts') (os ++ os') := by
  simp [Comments.add]

theorem Comments.setSequence_eq (g : Comments S) (t : TypeTags S) :
    g.setSequence szModuleName t.name t.comment = g.add szModuleName [t] [] := rfl

/-! ### Lines -/

theorem processLines_append (s : State S) (xs ys : List Text) :
    processLines r szModuleName s (xs ++ ys) =
      processLines r szModuleName (processLines r szModuleName s xs) ys :=
  List.foldl_append

theorem processLines_cons (s : State S) (raw : Text) (ys : List Text) :
    processLines r szModuleName s (raw :: ys) =
      processLines r szModuleName (processLine r szModuleName s raw) ys := rfl

theorem processLine_of_stay {el el' : Element S} {g g' : Comments S} {raw : Text}
    (below : List (Element S)) (h : el.processLine r szModuleName g raw = .stay el' g') :
    processLine r szModuleName (el :: below, g) raw = (el' :: below, g') := by
  rw [processLine]
  simp only [h]

theorem processLine_of_push {el el' top : Element S} {g g' : Comments S} {raw : Text}
    (below : List (Element S)) (h : el.processLine r szModuleName g raw = .push el' top g') :
    processLine r szModuleName (el :: below, g) raw = (top :: el' :: below, g') := by
  rw [processLine]
  simp only [h]

theorem processLine_of_done {el : Element S} {g g' : Comments S} {raw : Text}
    (below : List (Element S)) (h : el.processLine r szModuleName g raw = .done g') :
    processLine r szModuleName (el :: below, g) raw = (below, g') := by
  rw [processLine]
  simp only [h]

/-- Lines on which an element only collects. -/
theorem run_stay {kind : Kind S} {next : List Text → Text → List Text} {coll : List Text}
    (below : List (Element S)) (g : Comments S) {lines : List Text}
    (h : ∀ coll, ∀ raw ∈ lines, (Element.mk kind coll).processLine r szModuleName g raw =
      .stay ⟨kind, next coll raw⟩ g) :
    processLines r szModuleName (⟨kind, coll⟩ :: below, g) lines =
      (⟨kind, lines.foldl next coll⟩ :: below, g) := by
  induction lines generalizing coll with
  | nil => rfl
  | cons raw lines ih =>
      rw [processLines_cons, processLine_of_stay below (h coll raw List.mem_cons_self)]
      exact ih fun coll raw' hraw => h coll raw' (List.mem_cons_of_mem raw hraw)

/-! ### Types -/

section Sequence

variable {name : Text} {c : SequenceComment S} {modComment : TagData S} {coll : List Text}

theorem run_quiet (below : List (Element S)) (g : Comments S) {lead : List Text}
    (h : ∀ raw ∈ lead, IsQuiet raw) :
    processLines r szModuleName (⟨.sequence name c modComment true, coll⟩ :: below, g) lead =
      (⟨.sequence name c modComment true, collectAll coll lead⟩ :: below, g) := by
  rw [collectAll, List.foldl_filter]
  refine run_stay below g fun coll raw hraw => ?_
  by_cases hempty : szLine raw = []
  · simp [Element.processLine, sequenceLine, hempty]
  · obtain ⟨hlower, hbracket⟩ := (h raw hraw).resolve_left hempty
    simp [Element.processLine, sequenceLine, hempty, hlower, closeLine, hbracket]

/-- The lines up to the bracket, of which nothing is collected. -/
theorem run_opening (below : List (Element S)) (g : Comments S) {opened : Bool}
    {opening : List Text} (h : Opens opened opening) :
    processLines r szModuleName (⟨.sequence name c modComment opened, coll⟩ :: below, g) opening =
      (⟨.sequence name c modComment true, coll⟩ :: below, g) := by
  cases opened with
  | true =>
      obtain rfl : opening = [] := h
      rfl
  | false =>
      obtain ⟨hbefore, last, hlast, hbracket⟩ : (∀ raw ∈ opening.dropLast, '\x7b' ∉ szLine raw) ∧
        ∃ last ∈ opening.getLast?, '\x7b' ∈ szLine last := h
      obtain ⟨lines, rfl⟩ := List.getLast?_eq_some_iff.mp hlast
      rw [List.dropLast_concat] at hbefore
      have hlines := @run_stay S r szModuleName (.sequence name c modComment false)
        (fun coll _ => coll) coll below g lines fun coll raw hraw => by
          simp [Element.processLine, sequenceLine, hbefore raw hraw]
      have hsame : lines.foldl (fun (coll : List Text) _ => coll) coll = coll := by
        clear hlines hbefore hlast
        induction lines with
        | nil => rfl
        | cons _ _ ih => exact ih
      rw [processLines_append, hlines, hsame, processLines_cons, processLine_of_stay below]
      · rfl
      · simp [Element.processLine, sequenceLine, hbracket]

/-- A SEQUENCE OF member whose entry is made with the next line. -/
def waiting (taking : Option (Text × List Text)) (el : Element S) : List (Element S) :=
  match taking with
  | none => [el]
  | some (strTypeName, comments) => [⟨.sequenceOf strTypeName comments, []⟩, el]

/-- That entry. -/
def taken (r : Reader S) (taking : Option (Text × List Text)) : List (TypeTags S) :=
  match taking with
  | none => []
  | some (strTypeName, comments) => [⟨strTypeName, convertCommentList r comments (.none r), []⟩]

/-- The lines in front of a member. -/
theorem run_front (below : List (Element S)) (g : Comments S)
    {taking : Option (Text × List Text)} {lead : List Text} (hquiet : ∀ raw ∈ lead, IsQuiet raw)
    (htakes : Takes taking.isSome lead) :
    ∃ coll', Same coll' (collectAll coll lead) ∧
      processLines r szModuleName
        (waiting taking ⟨.sequence name c modComment true, coll⟩ ++ below, g) lead =
      (⟨.sequence name c modComment true, coll'⟩ :: below,
        g.add szModuleName (taken r taking) []) := by
  cases taking with
  | none => exact ⟨_, .refl _, run_quiet below g hquiet⟩
  | some t =>
      obtain ⟨first, hfirst, huntagged⟩ := htakes rfl
      obtain ⟨rest, rfl⟩ := List.head?_eq_some_iff.mp hfirst
      refine ⟨collectAll coll rest, ?_, ?_⟩
      · rw [collectAll_cons]
        refine Same.collectAll ?_ rest
        split_ifs with hempty
        · exact (same_collect (huntagged hempty) coll).symm
        · exact .refl coll
      · rw [processLines_cons]
        exact run_quiet below _ fun raw hraw => hquiet raw (List.mem_cons_of_mem _ hraw)

theorem szLine_ne_nil {raw : Text} (h : startsLower (token raw 0) = true) : szLine raw ≠ [] := by
  intro hempty
  rw [token, tokens, hempty] at h
  exact absurd h (by decide)

/-- The entry of a type with one more member. -/
def SequenceComment.insert (c : SequenceComment S) (entry : Text × TagData S) : SequenceComment S :=
  { c with mapMembers := entry :: c.mapMembers }

/-- The entry of a member. -/
def entry (r : Reader S) (coll : List Text) (raw : Text) : Text × TagData S :=
  (strMember raw, convertMemberCommentList r (collect coll (szComment raw)))

theorem processLine_member (g : Comments S) {raw : Text} (hlower : startsLower (token raw 0) = true)
    (hsequenceOf : isSequenceOf (token raw 1) (token raw 2) = false)
    (hopens : opensType (token raw 1) (token raw 2) = false) :
    (Element.mk (.sequence name c modComment true) coll).processLine r szModuleName g raw =
      closeLine szModuleName g name (c.insert (entry r coll raw)) modComment [] raw := by
  have hne := szLine_ne_nil hlower
  simp only [Element.processLine, sequenceLine, Bool.not_true, Bool.false_eq_true, if_false,
    if_neg hne, if_pos hlower, hsequenceOf, hopens]
  rfl

theorem processLine_sequenceOf (g : Comments S) {raw : Text}
    (hlower : startsLower (token raw 0) = true)
    (hsequenceOf : isSequenceOf (token raw 1) (token raw 2) = true) :
    (Element.mk (.sequence name c modComment true) coll).processLine r szModuleName g raw =
      .push ⟨.sequence name (c.insert (entry r coll raw)) modComment true, []⟩
        ⟨.sequenceOf (name ++ "List".toList) (collect coll (szComment raw)), []⟩ g := by
  have hne := szLine_ne_nil hlower
  simp only [Element.processLine, sequenceLine, Bool.not_true, Bool.false_eq_true, if_false,
    if_neg hne, if_pos hlower, hsequenceOf]
  rfl

theorem processLine_inline (g : Comments S) {raw : Text} (hlower : startsLower (token raw 0) = true)
    (hopens : opensType (token raw 1) (token raw 2) = true) :
    (Element.mk (.sequence name c modComment true) coll).processLine r szModuleName g raw =
      .push ⟨.sequence name (c.insert (entry r coll raw)) modComment true, []⟩
        (newSequence r (token raw 2 = ['\x7b']) (inlineName name raw) modComment
          (collect coll (szComment raw))) g := by
  have hne := szLine_ne_nil hlower
  have hsequenceOf : isSequenceOf (token raw 1) (token raw 2) = false := by
    rw [Bool.eq_false_iff]
    intro hof
    simp only [isSequenceOf, opensType, decide_eq_true_eq, Bool.decide_and, Bool.and_eq_true]
      at hof hopens
    rw [hof.2] at hopens
    exact absurd hopens.2 (by decide)
  simp only [Element.processLine, sequenceLine, Bool.not_true, Bool.false_eq_true, if_false,
    if_neg hne, if_pos hlower, hsequenceOf, hopens]
  rfl

theorem entry_eq {coll pending lead : List Text} (h : Same coll (collectAll pending lead))
    (line : Text) :
    entry r coll line =
      (strMember line, convertMemberCommentList r (ownComments pending lead line)) := by
  rw [entry, (h.collect (szComment line)).convertMember r, ownComments]

end Sequence

/-- What the members of a type do to its element, whatever is below. -/
def RunsMembers (r : Reader S) (szModuleName : Text) (members : Members) : Prop :=
  ∀ (name : Text) (c : SequenceComment S) (modComment : TagData S) (coll pending : List Text)
    (taking : Option (Text × List Text)) (below : List (Element S)) (g : Comments S),
    members.TagsHandled taking.isSome → Same coll pending →
    ∃ taking' ts coll',
      processLines r szModuleName
        (waiting taking ⟨.sequence name c modComment true, coll⟩ ++ below, g) members.lines =
      (waiting taking' ⟨.sequence name
          { c with mapMembers := (members.entries r pending).reverse ++ c.mapMembers }
          modComment true, coll'⟩ ++ below, g.add szModuleName ts []) ∧
      taking'.isSome = members.ends taking.isSome ∧ Same coll' (members.left pending) ∧
      ts ++ taken r taking' = taken r taking ++ members.types r modComment name pending

/-- The lines of a type behind its first one. -/
theorem run_body {members : Members} (h : RunsMembers r szModuleName members)
    (hhandled : members.TagsHandled false) {opening tail : List Text} {close : Text}
    {opened : Bool} (hopens : Opens opened opening) (hcloses : Closes tail close)
    (hbody : BodyHandled opening tail close (members.ends false)) (name : Text) (data : TagData S)
    (modComment : TagData S) (below : List (Element S)) (g : Comments S) :
    processLines r szModuleName (⟨.sequence name ⟨data, []⟩ modComment opened, []⟩ :: below, g)
      (opening ++ (members.lines ++ (tail ++ [close]))) =
    (below, g.add szModuleName (members.types r modComment name (collectAll [] opening) ++
      [⟨name, data, members.entries r (collectAll [] opening) ++
        closeEntries r (members.left (collectAll [] opening)) tail close⟩]) []) := by
  have hsame : Same [] (collectAll [] opening) := (same_collectAll hbody.opening []).symm
  obtain ⟨taking', ts, coll', hrun, hends, hleft, htypes⟩ :=
    h name ⟨data, []⟩ modComment [] (collectAll [] opening) none below g hhandled hsame
  rw [List.append_nil] at hrun
  replace htypes : ts ++ taken r taking' =
      members.types r modComment name (collectAll [] opening) := htypes
  obtain ⟨coll'', hcoll, htail⟩ := @run_front S r szModuleName name
    ⟨data, (members.entries r (collectAll [] opening)).reverse⟩ modComment coll' below
    (g.add szModuleName ts []) taking' tail hcloses.quiet (hends ▸ hbody.takes)
  rw [processLines_append, run_opening below g hopens, processLines_append]
  refine (congrArg (fun s => processLines r szModuleName s (tail ++ [close])) hrun).trans ?_
  rw [processLines_append, htail, Comments.add_add, htypes, List.append_nil, processLines_cons]
  -- the closing line may have the last member in front
  by_cases hlower : startsLower (token close 0) = true
  · have hline := @processLine_member S r szModuleName name
      ⟨data, (members.entries r (collectAll [] opening)).reverse⟩ modComment coll''
      (g.add szModuleName (members.types r modComment name (collectAll [] opening)) []) close
      hlower hcloses.not_sequenceOf hcloses.not_opens
    rw [closeLine, if_pos hcloses.bracket, entry_eq (hcoll.trans (hleft.collectAll tail))] at hline
    rw [processLine_of_done below hline, closeEntries, if_pos hlower]
    refine Prod.ext rfl ((Eq.trans ?_ (Comments.setSequence_eq _ _)).trans
      (Comments.add_add g _ _ [] []))
    rw [TypeTags.comment, List.reverse_append]
    rfl
  · have hline : (Element.mk (.sequence name
        ⟨data, (members.entries r (collectAll [] opening)).reverse⟩ modComment true)
        coll'').processLine r szModuleName
          (g.add szModuleName (members.types r modComment name (collectAll [] opening)) []) close =
        .done ((g.add szModuleName (members.types r modComment name (collectAll [] opening))
          []).setSequence szModuleName name
            ⟨data, (members.entries r (collectAll [] opening)).reverse⟩) := by
      have hne : szLine close ≠ [] := List.ne_nil_of_mem hcloses.bracket
      simp only [Element.processLine, sequenceLine, Bool.not_true, Bool.false_eq_true, if_false,
        if_neg hne, if_neg hlower, closeLine, if_pos hcloses.bracket]
    rw [processLine_of_done below hline, closeEntries, if_neg hlower, List.append_nil]
    exact Prod.ext rfl ((Comments.setSequence_eq _ ⟨name, data, _⟩).trans
      (Comments.add_add g _ _ [] []))

/-- Behind a type nothing with a tag is left over. -/
theorem same_closeLeft {members : Members} {opening tail : List Text} {close : Text} {taking : Bool}
    (hleft : ∀ pending, Same pending [] → Same (members.left pending) [])
    (h : BodyHandled opening tail close taking) :
    Same (closeLeft (members.left (collectAll [] opening)) tail close) [] := by
  rw [closeLeft]
  split_ifs with hlower
  · exact .refl []
  · exact (same_collectAll (h.tail (Bool.eq_false_iff.mpr hlower)) _).trans
      (hleft _ (same_collectAll h.opening []))

theorem same_left {members : Members} {taking : Bool} (h : members.TagsHandled taking)
    (pending : List Text) (hsame : Same pending []) : Same (members.left pending) [] := by
  induction members generalizing taking pending with
  | nil => exact hsame
  | plain lead line rest ih => exact ih h.2.2 [] (.refl [])
  | sequenceOf lead line rest ih => exact ih h.2 [] (.refl [])
  | inline lead line opening members tail close rest ihMembers ihRest =>
      obtain ⟨-, hmembers, hbody, hrest⟩ := h
      exact ihRest hrest _ (same_closeLeft (ihMembers hmembers) hbody)

/-- The members behind a member. -/
theorem run_rest {rest : Members} (h : RunsMembers r szModuleName rest) {name : Text}
    {c : SequenceComment S} {modComment : TagData S} {e : Text × TagData S} {pending : List Text}
    {taking : Option (Text × List Text)} {below : List (Element S)} {g : Comments S}
    {ts : List (TypeTags S)} (hhandled : rest.TagsHandled taking.isSome) (hsame : Same [] pending)
    {s : State S} {lines : List Text}
    (hrun : processLines r szModuleName s lines =
      (waiting taking ⟨.sequence name (c.insert e) modComment true, []⟩ ++ below,
        g.add szModuleName ts [])) :
    ∃ taking' ts' coll',
      processLines r szModuleName s (lines ++ rest.lines) =
      (waiting taking' ⟨.sequence name
          { c with mapMembers := (e :: rest.entries r pending).reverse ++ c.mapMembers }
          modComment true, coll'⟩ ++ below, g.add szModuleName ts' []) ∧
      taking'.isSome = rest.ends taking.isSome ∧ Same coll' (rest.left pending) ∧
      ts' ++ taken r taking' = (ts ++ taken r taking) ++ rest.types r modComment name pending := by
  obtain ⟨taking', ts', coll', hrest, hends, hleft, htypes⟩ :=
    h name (c.insert e) modComment [] pending taking below (g.add szModuleName ts []) hhandled hsame
  refine ⟨taking', ts ++ ts', coll', ?_, hends, hleft, ?_⟩
  · rw [processLines_append, hrun, hrest, Comments.add_add, List.append_nil, List.reverse_cons,
      List.append_assoc]
    rfl
  · rw [List.append_assoc, htypes, List.append_assoc]

theorem run_members {members : Members} (hlayout : members.Layout) :
    RunsMembers r szModuleName members := by
  induction members with
  | nil =>
      intro name c modComment coll pending taking below g _ hsame
      exact ⟨taking, [], coll, rfl, rfl, hsame, (List.append_nil _).symm⟩
  | plain lead line rest ih =>
      intro name c modComment coll pending taking below g hhandled hsame
      obtain ⟨hquiet, hlower, hsequenceOf, hopens, hrest⟩ := hlayout
      obtain ⟨htakes, hbracket, hhandled⟩ := hhandled
      obtain ⟨coll', hcoll, hfront⟩ := @run_front S r szModuleName name c modComment coll below g
        taking lead hquiet htakes
      have hline := @processLine_member S r szModuleName name c modComment coll'
        (g.add szModuleName (taken r taking) []) line hlower hsequenceOf hopens
      rw [closeLine, if_neg hbracket, entry_eq (hcoll.trans (hsame.collectAll lead))] at hline
      have hrun := processLine_of_stay below hline
      rw [Members.lines, List.append_cons]
      obtain ⟨taking', ts', coll'', hall, hends, hleft, htypes⟩ :=
        @run_rest S r szModuleName rest (ih hrest) name c modComment _ [] none below g
          (taken r taking) hhandled (.refl []) _ (lead ++ [line])
          (by rw [processLines_append, hfront]; exact hrun)
      refine ⟨taking', ts', coll'', hall, hends, hleft, htypes.trans ?_⟩
      rw [taken, List.append_nil]
      rfl
  | sequenceOf lead line rest ih =>
      -- the entry of this one is made with the line behind, so it is handed to the rest
      intro name c modComment coll pending taking below g hhandled hsame
      obtain ⟨hquiet, hlower, hsequenceOf, hrest⟩ := hlayout
      obtain ⟨htakes, hhandled⟩ := hhandled
      obtain ⟨coll', hcoll, hfront⟩ := @run_front S r szModuleName name c modComment coll below g
        taking lead hquiet htakes
      have hcoll := hcoll.trans (hsame.collectAll lead)
      have hline := @processLine_sequenceOf S r szModuleName name c modComment coll'
        (g.add szModuleName (taken r taking) []) line hlower hsequenceOf
      rw [entry_eq hcoll] at hline
      have hrun := processLine_of_push below hline
      rw [Members.lines, List.append_cons]
      obtain ⟨taking', ts', coll'', hall, hends, hleft, htypes⟩ :=
        @run_rest S r szModuleName rest (ih hrest) name c modComment _ []
          (some (name ++ "List".toList, collect coll' (szComment line))) below g
          (taken r taking) hhandled (.refl []) _ (lead ++ [line])
          (by rw [processLines_append, hfront]; exact hrun)
      refine ⟨taking', ts', coll'', hall, hends, hleft, htypes.trans ?_⟩
      rw [taken, Members.types, List.append_assoc,
        (hcoll.collect (szComment line)).convert r (.none r)]
      rfl
  | inline lead line opening members tail close rest ihMembers ihRest =>
      intro name c modComment coll pending taking below g hhandled hsame
      obtain ⟨hquiet, hlower, hopens, hopening, hmembers, hcloses, hrest⟩ := hlayout
      obtain ⟨htakes, hinner, hbody, hhandled⟩ := hhandled
      obtain ⟨coll', hcoll, hfront⟩ := @run_front S r szModuleName name c modComment coll below g
        taking lead hquiet htakes
      have hcoll := hcoll.trans (hsame.collectAll lead)
      have hline := @processLine_inline S r szModuleName name c modComment coll'
        (g.add szModuleName (taken r taking) []) line hlower hopens
      rw [entry_eq hcoll, newSequence,
        (hcoll.collect (szComment line)).convert r (.inherit r modComment)] at hline
      have hrun := processLine_of_push below hline
      have hinline := run_body (ihMembers hmembers) hinner hopening hcloses hbody
        (inlineName name line)
        (convertCommentList r (ownComments pending lead line) (.inherit r modComment)) modComment
        (⟨.sequence name (c.insert (strMember line,
          convertMemberCommentList r (ownComments pending lead line))) modComment true, []⟩ ::
            below)
        (g.add szModuleName (taken r taking) [])
      have hlines : (Members.inline lead line opening members tail close rest).lines =
          (lead ++ line :: (opening ++ (members.lines ++ (tail ++ [close])))) ++ rest.lines := by
        rw [Members.lines]
        simp
      rw [Comments.add_add, List.append_nil] at hinline
      rw [hlines]
      obtain ⟨taking', ts', coll'', hall, hends, hleft, htypes⟩ :=
        @run_rest S r szModuleName rest (ihRest hrest) name c modComment _
          (closeLeft (members.left (collectAll [] opening)) tail close) none below g _ hhandled
          (same_closeLeft (same_left hinner) hbody).symm _
          (lead ++ line :: (opening ++ (members.lines ++ (tail ++ [close]))))
          (by rw [processLines_append, hfront, processLines_cons, hrun]; exact hinline)
      refine ⟨taking', ts', coll'', hall, hends, hleft, htypes.trans ?_⟩
      rw [taken, List.append_nil, Members.types]
      simp only [List.append_assoc, List.cons_append, List.nil_append, ownComments]

end Esnacc.Compiler.CommentParser.CommentMaps
