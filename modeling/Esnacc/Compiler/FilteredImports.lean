import Mathlib
import Esnacc.Compiler.ImportSegments

/-!
`FilterFiles` of the comment parser: the import clause of a filtered file is cut out, filtered, and
put back.
-/

namespace Esnacc.Compiler.FilteredImports

open CommentParser

/-! ### `FilterFiles` -/

/-- The contents after the clause has been replaced. `posLast` is one less than what is in front of
the semicolon; when that is nothing, it is `npos`, and the clause is the rest of the file. -/
def filterContent (c : Comments) (strFileContent : Text) : Option Text :=
  match find "\nIMPORTS".toList strFileContent with
  | none => some strFileContent
  | some (front, clause) =>
      match find [';'] (clause.drop 8) with
      | none => some strFileContent
      | some (strImports, _) =>
          let posLast :=
            if strImports = [] then (clause.drop 8).length else strImports.length - 1
          -- `replace` takes a C string, which ends at a zero
          (filterImports c ((clause.drop 8).take posLast)).map fun result =>
            front ++ clause.take 8 ++ result.takeWhile (fun ch => ch ≠ '\x00') ++
              (clause.drop 8).drop posLast

def isIgnoredTildeCommentLine (line : Text) : Bool :=
  match line.dropWhile isSpace with
  | '-' :: '-' :: rest => (rest.dropWhile isSpace).head? = some '~'
  | _ => false

/-- The lines that are written. -/
def writtenLines (strFileContent : Text) : Text :=
  ((getlines '\n' strFileContent).filter fun line => !isIgnoredTildeCommentLine line).flatMap
    (· ++ ['\n'])

/-- What becomes of a file: it is deleted when nothing is left of it. The outer `none` is an
endless loop. -/
def filterFile (c : Comments) (strFileContent : Text) : Option (Option Text) :=
  if strFileContent = [] then some none
  else (filterContent c strFileContent).map fun content => some (writtenLines content)

/-! ### Lines -/

/-- A text of whole lines, none of which is left out. -/
structure WholeLines (s : Text) : Prop where
  last : s.getLast? = some '\n'
  lines : ∀ line ∈ s.splitOn '\n', isIgnoredTildeCommentLine line = false

theorem flatMap_splitOn (s : Text) (d : Char) : (s.splitOn d).flatMap (· ++ [d]) = s ++ [d] := by
  induction s with
  | nil => rfl
  | cons c s ih =>
      rw [List.splitOn_cons_eq_if_modifyHead]
      split_ifs with hc
      · rw [List.flatMap_cons, ih, List.nil_append, List.singleton_append, beq_iff_eq.mp hc]
        rfl
      · obtain ⟨l, ls, hsplit⟩ := List.exists_cons_of_ne_nil (List.splitOn_ne_nil d s)
        rw [hsplit] at ih ⊢
        rw [List.modifyHead_cons, List.flatMap_cons, List.cons_append, List.cons_append,
          ← List.flatMap_cons (f := (· ++ [d])), ih]
        rfl

theorem WholeLines.writtenLines_eq {s : Text} (h : WholeLines s) : writtenLines s = s := by
  obtain ⟨t, rfl⟩ : ∃ t, s = t ++ ['\n'] := List.getLast?_eq_some_iff.mp h.last
  have hsplit : (t ++ ['\n']).splitOn '\n' = t.splitOn '\n' ++ [[]] :=
    List.splitOn_append_cons_self t []
  have hlines : getlines '\n' (t ++ ['\n']) = t.splitOn '\n' := by
    rw [getlines, hsplit, List.getLast?_append_of_ne_nil _ (List.cons_ne_nil _ _)]
    exact (if_pos rfl).trans (List.dropLast_concat)
  rw [writtenLines, hlines, List.filter_eq_self.mpr, flatMap_splitOn]
  intro line hline
  rw [h.lines line (hsplit ▸ List.mem_append_left _ hline)]
  rfl

/-- In a line that is left out, the tilde comes in front of any semicolon. -/
theorem tilde_of_isIgnored {line : Text} (h : isIgnoredTildeCommentLine line = true) :
    '~' ∈ line.takeWhile fun c => c ≠ ';' := by
  have hblank (s : Text) : IsBlank (s.takeWhile isSpace) := fun c hc => List.mem_takeWhile_imp hc
  have hskip {b s : Text} (hb : ∀ c ∈ b, c ≠ ';') :
      ((b ++ s).takeWhile fun c => c ≠ ';') = b ++ s.takeWhile fun c => c ≠ ';' :=
    List.takeWhile_append_of_pos fun c hc => by simpa using hb c hc
  have hsemicolon {b : Text} (hb : IsBlank b) : ∀ c ∈ b, c ≠ ';' := fun c hc heq =>
    hb.notMem (by decide) (heq ▸ hc)
  rw [isIgnoredTildeCommentLine] at h
  rw [← List.takeWhile_append_dropWhile (p := isSpace) (l := line), hskip (hsemicolon (hblank _))]
  refine List.mem_append_right _ ?_
  split at h
  · next rest hrest =>
      have htilde := of_decide_eq_true h
      rw [hrest, List.takeWhile_cons_of_pos (by decide), List.takeWhile_cons_of_pos (by decide),
        ← List.takeWhile_append_dropWhile (p := isSpace) (l := rest), hskip (hsemicolon (hblank _))]
      refine List.mem_cons_of_mem _ (List.mem_cons_of_mem _ (List.mem_append_right _ ?_))
      obtain ⟨r, hr⟩ : ∃ r, rest.dropWhile isSpace = '~' :: r := List.head?_eq_some_iff.mp htilde
      rw [hr, List.takeWhile_cons_of_pos (by decide)]
      exact List.mem_cons_self
  · cases h

/-- What is left of a semicolon has no tilde. -/
def Tame (line : Text) : Prop := '~' ∉ line.takeWhile fun c => c ≠ ';'

theorem Tame.not_ignored {line : Text} (h : Tame line) : isIgnoredTildeCommentLine line = false :=
  (Bool.not_eq_true _).mp fun hyes => h (tilde_of_isIgnored hyes)

/-- The lines of a text in front of a semicolon and behind it. -/
theorem lines_semicolon {a : Text} (ha : '~' ∉ a) (rest : Text) :
    ∃ l ls, (a ++ ';' :: rest).splitOn '\n' = l :: ls ∧ Tame l ∧
      ∀ line ∈ ls, Tame line ∨ line ∈ (rest.splitOn '\n').tail := by
  induction a with
  | nil =>
      obtain ⟨l, ls, hsplit⟩ := List.exists_cons_of_ne_nil (List.splitOn_ne_nil '\n' rest)
      refine ⟨';' :: l, ls, ?_, ?_, fun line hline => .inr ?_⟩
      · rw [List.nil_append, List.splitOn_cons_eq_if_modifyHead, if_neg (by decide), hsplit,
          List.modifyHead_cons]
      · rw [Tame, List.takeWhile_cons_of_neg (by decide)]
        exact List.not_mem_nil
      · rw [hsplit]
        exact hline
  | cons c a ih =>
      rw [List.mem_cons, not_or] at ha
      obtain ⟨l, ls, hsplit, htame, hls⟩ := ih ha.2
      rw [List.cons_append, List.splitOn_cons_eq_if_modifyHead, hsplit]
      split_ifs with hc
      · refine ⟨[], l :: ls, rfl, List.not_mem_nil, fun line hline => ?_⟩
        rcases List.mem_cons.mp hline with rfl | hline
        · exact .inl htame
        · exact hls line hline
      · refine ⟨c :: l, ls, rfl, ?_, hls⟩
        rw [Tame, List.takeWhile_cons]
        split_ifs
        · rw [List.mem_cons, not_or]
          exact ⟨ha.1, htame⟩
        · exact List.not_mem_nil

/-- The lines behind the first one are lines of a longer text. -/
theorem tail_subset (a rest : Text) :
    ∀ line ∈ (rest.splitOn '\n').tail, line ∈ ((a ++ rest).splitOn '\n').tail := by
  induction a with
  | nil => exact fun _ h => h
  | cons c a ih =>
      intro line hline
      have hin := ih line hline
      rw [List.cons_append, List.splitOn_cons_eq_if_modifyHead]
      split_ifs
      · exact List.mem_of_mem_tail hin
      · rw [List.tail_modifyHead]
        exact hin

theorem WholeLines.replace {front clause clause' rest : Text}
    (h : WholeLines (front ++ "\nIMPORTS".toList ++ clause ++ [';'] ++ rest))
    (hclause : '~' ∉ clause') :
    WholeLines (front ++ "\nIMPORTS".toList ++ clause' ++ [';'] ++ rest) := by
  have hshape (x : Text) : front ++ "\nIMPORTS".toList ++ x ++ [';'] ++ rest =
      front ++ '\n' :: ("IMPORTS".toList ++ x ++ ';' :: rest) := by
    simp
  have hlast : rest.getLast? = some '\n' := by
    cases rest with
    | nil =>
        have hno := h.last
        rw [List.append_nil, List.getLast?_concat] at hno
        exact absurd hno (by decide)
    | cons c rest =>
        have hlast := h.last
        rwa [List.getLast?_append_of_ne_nil _ (List.cons_ne_nil _ _)] at hlast
  have hne : rest ≠ [] := by
    rintro rfl
    cases hlast
  have hlines := h.lines
  rw [hshape, List.splitOn_append_cons_self] at hlines
  constructor
  · rw [List.getLast?_append_of_ne_nil _ hne]
    exact hlast
  · rw [hshape, List.splitOn_append_cons_self]
    have htilde : '~' ∉ "IMPORTS".toList ++ clause' := by
      rw [List.mem_append, not_or]
      exact ⟨by decide, hclause⟩
    obtain ⟨l, ls, hsplit, htame, hls⟩ := lines_semicolon htilde rest
    intro line hline
    rcases List.mem_append.mp hline with hline | hline
    · exact hlines line (List.mem_append_left _ hline)
    · rw [hsplit] at hline
      have hline : line = l ∨ Tame line ∨ line ∈ (rest.splitOn '\n').tail :=
        (List.mem_cons.mp hline).imp_right (hls line)
      rcases hline with rfl | hline | hline
      · exact htame.not_ignored
      · exact hline.not_ignored
      · have htail := tail_subset ("IMPORTS".toList ++ clause ++ [';']) rest line hline
        rw [List.append_assoc, List.singleton_append] at htail
        exact hlines line (List.mem_append_right _ (List.mem_of_mem_tail htail))

/-! ### The clause of a file -/

/-- A character that is in no word, no blank and no comma. -/
theorem notMem_clauseText {gs : List ImportGroup} {tail : Text} (h : ∀ g ∈ gs, g.Proper)
    (htail : IsBlank tail) {d : Char} (hspace : isSpace d = false)
    (hword : (d.isAlphanum || d = '-') = false) (hcomma : d ≠ ',') : d ∉ clauseText gs tail := by
  rw [clauseText, List.mem_append, not_or]
  refine ⟨fun hmem => ?_, htail.notMem hspace⟩
  obtain ⟨g, hg, hmem⟩ := List.mem_flatMap.mp hmem
  have hg' := h g hg
  have hnames : d ∉ [','].intercalate (g.names.map ImportedName.text) := by
    have hall := hg'.names
    generalize g.names = ns at hall
    induction ns with
    | nil => exact List.not_mem_nil
    | cons n ns ih =>
        rw [List.forall_mem_cons] at hall
        have hn : d ∉ n.text := by
          rw [ImportedName.text, List.mem_append, List.mem_append, not_or, not_or]
          exact ⟨⟨hall.1.lead.notMem hspace, hall.1.name.notMem hword⟩, hall.1.trail.notMem hspace⟩
        cases ns with
        | nil => rwa [List.map_cons, List.map_nil, List.intercalate_singleton]
        | cons n' ns =>
            rw [intercalate_text, List.mem_append, List.mem_append, not_or, not_or]
            exact ⟨⟨hn, fun hin => hcomma (List.mem_singleton.mp hin)⟩, ih hall.2⟩
  have hfrom : d ∉ "FROM".toList := fun hin => by
    rw [isAlphanum_of_mem_from d hin] at hword
    cases hword
  rw [ImportGroup.text, List.mem_append, List.mem_append, List.mem_append, List.mem_append] at hmem
  rcases hmem with (((hmem | hmem) | hmem) | hmem) | hmem
  · exact hnames hmem
  · exact hfrom hmem
  · exact hg'.gap.1.notMem hspace hmem
  · exact hg'.module.notMem hword hmem
  · exact hg'.close.notMem hspace hmem

/-- The condition on a clause and on what is known: its last character is white space; there is a
blank behind every `FROM`, the module stands in the same line, and the line ends behind it; no name
ends in `FROM`; a known module has all its names as types; and what is written first has a line
break in front of it. -/
structure Plain (c : Comments) (gs : List ImportGroup) (tail : Text) : Prop where
  tidy : ∀ g ∈ gs, g.Tidy
  lines : ∀ g ∈ gs, g.close ≠ [] ∧ '\n' ∉ g.close.dropLast
  ends : ∀ g ∈ (if tail = [] then gs.dropLast else gs), g.close.getLast? = some '\n'
  nonempty : clauseText gs tail ≠ []
  knows : ∀ g ∈ gs, c.Knows g
  first : ∀ n ∈ (remaining c gs).head?, ltrimspace n.lead ≠ []

theorem inLines_of_ends {gs : List ImportGroup} {tail : Text} (htidy : ∀ g ∈ gs, g.Tidy)
    (hlines : ∀ g ∈ gs, '\n' ∉ g.close.dropLast) (hends : ∀ g ∈ gs, g.close.getLast? = some '\n')
    (htail : IsBlank tail) : InLines gs tail := by
  induction gs with
  | nil => exact htail
  | cons g gs ih =>
      rw [List.forall_mem_cons] at htidy hlines hends
      obtain ⟨inline, hinline⟩ := List.getLast?_eq_some_iff.mp hends.1
      have hno := hlines.1
      rw [hinline, List.dropLast_concat] at hno
      exact ⟨htidy.1, .inl ⟨⟨inline, hinline, hno⟩, ih htidy.2 hlines.2 hends.2⟩⟩

theorem inLines_append {gs : List ImportGroup} {g : ImportGroup} (htidy : ∀ g ∈ gs, g.Tidy)
    (hlines : ∀ g ∈ gs, '\n' ∉ g.close.dropLast) (hends : ∀ g ∈ gs, g.close.getLast? = some '\n')
    (hg : g.Tidy) (hclose : '\n' ∉ g.close) : InLines (gs ++ [g]) [] := by
  induction gs with
  | nil => exact ⟨hg, .inr ⟨rfl, rfl, hclose⟩⟩
  | cons g' gs ih =>
      rw [List.forall_mem_cons] at htidy hlines hends
      obtain ⟨inline, hinline⟩ := List.getLast?_eq_some_iff.mp hends.1
      have hno := hlines.1
      rw [hinline, List.dropLast_concat] at hno
      exact ⟨htidy.1, .inl ⟨⟨inline, hinline, hno⟩, ih htidy.2 hlines.2 hends.2⟩⟩

theorem Written.wellFormed {c : Comments} {gs ks : List ImportGroup} {tail : Text}
    (h : Written c gs ks) (hclose : ∀ g ∈ gs, g.close ≠ [])
    (hfirst : ∀ n ∈ (remaining c gs).head?, ltrimspace n.lead ≠ []) (htail : IsBlank tail) :
    WellFormed ks tail := by
  refine ⟨h.proper, htail, fun k hk n hn => ?_, fun k hk => ?_⟩
  · have hlead := h.lead k hk
    rw [hn, Option.map_some] at hlead
    obtain ⟨n', hn', heq⟩ := Option.map_eq_some_iff.mp hlead.symm
    rw [← heq]
    exact hfirst n' hn'
  · obtain ⟨g, hg, heq⟩ := h.close k (List.mem_of_mem_dropLast hk)
    rw [heq]
    exact hclose g hg

theorem Comments.kept_append (c : Comments) (xs ys : List (List Text × Text)) :
    c.kept (xs ++ ys) = c.kept xs ++ c.kept ys := by
  rw [kept, kept, kept, List.map_append, List.filter_append]

theorem segment_text_nil {g : ImportGroup} (h : g.names = []) : g.segment.text = [] := by
  rw [ImportSegment.text, ImportGroup.segment, h]
  rfl

/-- The last group without its last character. -/
theorem segment_text_cut {c : Comments} {g : ImportGroup} (h : g.Proper) {inline : Text} {ch : Char}
    (hclose : g.close = inline ++ [ch]) :
    ({ g with close := inline }.keep c).segment.text ++
      (if (g.keep c).names = [] then [] else [ch]) = (g.keep c).segment.text := by
  have hproper : ∀ n ∈ (g.keep c).names, n.Proper := fun n hn =>
    h.names n (List.mem_of_mem_filter hn)
  have hcut := @segment_text ({ g with close := inline }.keep c) hproper
  rw [hcut, segment_text hproper]
  by_cases hnone : (g.keep c).names = []
  · rw [if_pos hnone, if_pos hnone]
    exact (congrArg (· ++ []) (if_pos hnone)).trans (List.append_nil _)
  · rw [if_neg hnone, if_neg hnone]
    refine (congrArg (· ++ [ch]) (if_neg hnone)).trans ?_
    simp [ImportGroup.segment, ImportGroup.keep, hclose]

theorem clauseText_concat (gs : List ImportGroup) (g : ImportGroup) :
    clauseText (gs ++ [g]) [] = clauseText gs [] ++ g.text := by
  simp [clauseText]

/-- What is made of a clause without its last character, and that character behind it. -/
theorem filterImports_dropLast {c : Comments} {gs : List ImportGroup} {tail : Text}
    (hwf : WellFormed gs tail) (h : Plain c gs tail) :
    ∃ result ks tail', filterImports c (clauseText gs tail).dropLast = some result ∧
      (∀ ch ∈ (clauseText gs tail).getLast?, result ++ [ch] = clauseText ks tail') ∧
      WellFormed ks tail' ∧ ks.map ImportGroup.content = c.kept (gs.map ImportGroup.content) := by
  have hclose : ∀ g ∈ gs, g.close ≠ [] := fun g hg => (h.lines g hg).1
  have hlines : ∀ g ∈ gs, '\n' ∉ g.close.dropLast := fun g hg => (h.lines g hg).2
  have hends := h.ends
  rcases List.eq_nil_or_concat tail with rfl | ⟨t, ch, rfl⟩
  · -- the character belongs to the last group
    rcases List.eq_nil_or_concat gs with rfl | ⟨gs, l, rfl⟩
    · exact absurd rfl h.nonempty
    rw [List.concat_eq_append] at *
    rw [if_pos rfl, List.dropLast_concat] at hends
    have hl : l ∈ gs ++ [l] := List.mem_append_right _ (List.mem_singleton_self l)
    have hgs {g : ImportGroup} (hg : g ∈ gs) : g ∈ gs ++ [l] := List.mem_append_left _ hg
    obtain ⟨inline, ch, hinline⟩ : ∃ inline ch, l.close = inline ++ [ch] :=
      ⟨_, _, (List.dropLast_append_getLast (hclose l hl)).symm⟩
    have hltidy := h.tidy l hl
    have hblank := isBlank_append.mp (hinline ▸ hltidy.proper.close)
    have hcut : ImportGroup.Tidy { l with close := inline } :=
      ⟨{ hltidy.proper with close := hblank.1 }, hltidy.noFrom, hltidy.gap⟩
    have hnewline : '\n' ∉ inline := by
      have hno := hlines l hl
      rwa [hinline, List.dropLast_concat] at hno
    have hin : InLines (gs ++ [{ l with close := inline }]) [] :=
      inLines_append (fun g hg => h.tidy g (hgs hg)) (fun g hg => hlines g (hgs hg)) hends hcut
        hnewline
    have htext : clauseText (gs ++ [l]) [] =
        clauseText (gs ++ [{ l with close := inline }]) [] ++ [ch] := by
      rw [clauseText_concat, clauseText_concat, ImportGroup.text, hinline]
      simp [ImportGroup.text, ImportGroup.namesText]
    have hresult := filterImports_clauseText hin
      (List.forall_mem_append.mpr ⟨fun g hg => h.tidy g (hgs hg),
        List.forall_mem_singleton.mpr hcut⟩)
      (List.forall_mem_append.mpr ⟨fun g hg => h.knows g (hgs hg),
        List.forall_mem_singleton.mpr (h.knows l hl)⟩)
    rw [List.flatMap_append, List.flatMap_singleton] at hresult
    have hsegment := @segment_text_cut c l hltidy.proper inline ch hinline
    rw [htext, List.dropLast_concat, List.getLast?_concat]
    by_cases hnone : (l.keep c).names = []
    · -- nothing is left of the last group, and its last character stands by itself
      obtain ⟨ks, hks⟩ := exists_written c fun g hg => (h.tidy g (hgs hg)).proper
      have hfirst : remaining c (gs ++ [l]) = remaining c gs := by
        rw [remaining, List.flatMap_append, List.flatMap_singleton, hnone, List.append_nil]
        rfl
      rw [if_pos hnone, List.append_nil, segment_text_nil hnone] at hsegment
      rw [hsegment, List.append_nil, hks.text] at hresult
      refine ⟨_, ks, [ch], hresult, fun d hd => ?_,
        hks.wellFormed (fun g hg => hclose g (hgs hg)) (hfirst ▸ h.first) hblank.2, ?_⟩
      · rw [← Option.mem_some_iff.mp hd]
        rfl
      · rw [hks.content, List.map_append, List.map_singleton, Comments.kept_append, kept_cons,
          if_pos hnone]
        exact (List.append_nil _).symm
    · obtain ⟨ks, hks⟩ := exists_written c fun g hg => (h.tidy g hg).proper
      refine ⟨_, ks, [], hresult, fun d hd => ?_,
        hks.wellFormed hclose h.first fun c hc => absurd hc List.not_mem_nil, hks.content⟩
      rw [if_neg hnone] at hsegment
      have htext' := hks.text
      rw [List.flatMap_append, List.flatMap_singleton] at htext'
      rw [← Option.mem_some_iff.mp hd, List.append_assoc, hsegment, htext', clauseText,
        List.append_nil]
  · -- the character is behind all groups
    rw [List.concat_eq_append] at *
    have hne : t ++ [ch] ≠ [] := List.append_ne_nil_of_right_ne_nil _ (List.cons_ne_nil _ _)
    rw [if_neg hne] at hends
    have hblank := isBlank_append.mp hwf.tail
    have htext : clauseText gs (t ++ [ch]) = clauseText gs t ++ [ch] :=
      (List.append_assoc _ _ _).symm
    have hresult := filterImports_clauseText (inLines_of_ends h.tidy hlines hends hblank.1) h.tidy
      h.knows
    obtain ⟨ks, hks⟩ := exists_written c fun g hg => (h.tidy g hg).proper
    rw [htext, List.dropLast_concat, List.getLast?_concat]
    rw [hks.text] at hresult
    refine ⟨_, ks, [ch], hresult, fun d hd => ?_, hks.wellFormed hclose h.first hblank.2,
      hks.content⟩
    rw [← Option.mem_some_iff.mp hd]
    rfl

/-! ### Files -/

theorem find_eq_some {str s a b : Text} (h : find str s = some (a, b)) :
    s = a ++ b ∧ str <+: b := by
  induction s generalizing a with
  | nil => cases h
  | cons c s ih =>
      rw [find] at h
      split_ifs at h with hprefix
      · obtain ⟨rfl, rfl⟩ := Prod.mk.inj (Option.some.inj h)
        exact ⟨rfl, List.isPrefixOf_iff_prefix.mp hprefix⟩
      · obtain ⟨⟨a', b'⟩, hfind, heq⟩ := Option.map_eq_some_iff.mp h
        obtain ⟨rfl, rfl⟩ := Prod.mk.inj heq
        obtain ⟨rfl, hstr⟩ := ih hfind
        exact ⟨rfl, hstr⟩

theorem notMem_of_find {d : Char} {s a b : Text} (h : find [d] s = some (a, b)) : d ∉ a := by
  induction s generalizing a with
  | nil => cases h
  | cons c s ih =>
      rw [find] at h
      split_ifs at h with hprefix
      · obtain ⟨rfl, -⟩ := Prod.mk.inj (Option.some.inj h)
        exact List.not_mem_nil
      · obtain ⟨⟨a', b'⟩, hfind, heq⟩ := Option.map_eq_some_iff.mp h
        obtain rfl : c :: a' = a := (Prod.mk.inj heq).1
        obtain rfl : b' = b := (Prod.mk.inj heq).2
        refine List.not_mem_cons_of_ne_of_not_mem (fun hc => hprefix ?_) (ih hfind)
        rw [hc, List.isPrefixOf_iff_prefix]
        exact List.prefix_append [c] s

/-- The content has this clause. -/
structure IsImport (content front clause rest : Text) : Prop where
  first : find "\nIMPORTS".toList content =
    some (front, "\nIMPORTS".toList ++ clause ++ [';'] ++ rest)
  noSemicolon : ';' ∉ clause

/-- The content with another text in place of the clause. -/
def withClause (front clause rest : Text) : Text :=
  front ++ "\nIMPORTS".toList ++ clause ++ [';'] ++ rest

theorem IsImport.eq {content front clause rest : Text} (h : IsImport content front clause rest) :
    content = withClause front clause rest := by
  rw [(find_eq_some h.first).1, withClause]
  simp only [List.append_assoc]

theorem filterContent_of_not_isImport (c : Comments) {content : Text}
    (h : ∀ front clause rest, ¬ IsImport content front clause rest) :
    filterContent c content = some content := by
  rw [filterContent]
  cases hfind : find "\nIMPORTS".toList content with
  | none => rfl
  | some r =>
      obtain ⟨front, s⟩ := r
      obtain ⟨-, t, rfl⟩ := find_eq_some hfind
      dsimp only
      rw [show ("\nIMPORTS".toList ++ t).drop 8 = t from rfl]
      cases hsemicolon : find [';'] t with
      | none => rfl
      | some r =>
          obtain ⟨clause, s⟩ := r
          obtain ⟨rfl, rest, rfl⟩ := find_eq_some hsemicolon
          refine absurd ⟨?_, notMem_of_find hsemicolon⟩ (h front clause rest)
          rw [hfind]
          simp only [List.append_assoc]

/-- The clause of a file has been filtered: it ends, it keeps what is not filtered, and nothing else
has changed but what `written` does to all files. -/
def Filtered (written : Text → Text) (c : Comments) (content front rest : Text)
    (contents : List (List Text × Text)) : Prop :=
  ∃ clause, filterFile c content = some (some (written (withClause front clause rest))) ∧
    IsClause clause (c.kept contents)

/-- What `FilterImports` gets: the clause without its last character, or the rest of the file. -/
def cutClause (clause rest : Text) : Text :=
  if clause = [] then [';'] ++ rest else clause.dropLast

theorem find_semicolon {clause : Text} (h : ';' ∉ clause) (rest : Text) :
    find [';'] (clause ++ ([';'] ++ rest)) = some (clause, [';'] ++ rest) := by
  have hno : ∀ d ∈ clause, d ≠ ';' := fun d hd heq => h (heq ▸ hd)
  rw [find_append_of_forall _ hno, find_self (List.cons_ne_nil _ _), Option.map_some,
    List.append_nil]

theorem filterContent_of_isImport (c : Comments) {content front clause rest : Text}
    (h : IsImport content front clause rest) :
    filterContent c content = (filterImports c (cutClause clause rest)).map fun result =>
      front ++ "\nIMPORTS".toList ++ result.takeWhile (fun ch => ch ≠ '\x00') ++
        if clause = [] then [] else clause.getLast?.toList ++ [';'] ++ rest := by
  have hdrop : ("\nIMPORTS".toList ++ clause ++ [';'] ++ rest).drop 8 =
      clause ++ ([';'] ++ rest) := by
    rw [List.append_assoc, List.append_assoc]
    rfl
  have htake : ("\nIMPORTS".toList ++ clause ++ [';'] ++ rest).take 8 = "\nIMPORTS".toList := by
    rw [List.append_assoc, List.append_assoc]
    rfl
  have hsemicolon := find_semicolon h.noSemicolon rest
  rw [filterContent, h.first]
  dsimp only
  rw [hdrop, hsemicolon, htake]
  dsimp only
  rcases List.eq_nil_or_concat clause with rfl | ⟨t, ch, rfl⟩
  · rw [if_pos rfl, if_pos rfl, cutClause, if_pos rfl, List.nil_append, List.take_length,
      List.drop_length]
  · have hne : t.concat ch ≠ [] := by simp
    have hcut : (t.concat ch ++ ([';'] ++ rest)).take ((t.concat ch).length - 1) = t := by
      simp
    have hleft : (t.concat ch ++ ([';'] ++ rest)).drop ((t.concat ch).length - 1) =
        [ch] ++ [';'] ++ rest := by
      simp
    rw [if_neg hne, if_neg hne, cutClause, if_neg hne, hcut, hleft, List.concat_eq_append,
      List.dropLast_concat, List.getLast?_concat]
    rfl

theorem filtered_of_plain {c : Comments} {content front rest : Text} {gs : List ImportGroup}
    {tail : Text} (himport : IsImport content front (clauseText gs tail) rest)
    (hwf : WellFormed gs tail) (h : Plain c gs tail) :
    Filtered writtenLines c content front rest (gs.map ImportGroup.content) := by
  obtain ⟨result, ks, tail', hresult, hclause', hwf', hkept⟩ := filterImports_dropLast hwf h
  obtain ⟨ch, hch⟩ : ∃ ch, (clauseText gs tail).getLast? = some ch :=
    ⟨_, List.getLast?_eq_some_getLast h.nonempty⟩
  have heq := hclause' ch hch
  have hnul : (result.takeWhile fun ch => ch ≠ '\x00') = result := by
    rw [List.takeWhile_eq_self_iff]
    intro d hd
    have hmem : d ∈ clauseText ks tail' := heq ▸ List.mem_append_left _ hd
    have hne : d ≠ '\x00' := fun hd' =>
      notMem_clauseText hwf'.groups hwf'.tail (by decide) (by decide) (by decide) (hd' ▸ hmem)
    exact decide_eq_true hne
  have hcontent : filterContent c content = some (withClause front (clauseText ks tail') rest) := by
    rw [filterContent_of_isImport c himport, cutClause, if_neg h.nonempty, if_neg h.nonempty,
      hresult, Option.map_some, hnul, hch, withClause, ← heq]
    simp
  refine ⟨clauseText ks tail', ?_, ks, tail', hwf', rfl, hkept⟩
  have hne : content ≠ [] := by
    rintro rfl
    cases himport.first
  rw [filterFile, if_neg hne, hcontent, Option.map_some]

/-! ### Termination -/

/-- All names of known modules that are not filtered are found. -/
def Comments.Finds (c : Comments) (strImports : Text) : Prop :=
  ∀ imp ∈ segments strImports, ∀ m, c.module imp.strASN1ModuleName = some m → m.strName ≠ [] →
    isFiltered c.settings m.comment = false →
      ∀ name ∈ imp.strImports, (c.sequence (lookupName m.strName name)).isSome = true

theorem filterNames_isSome (c : Comments) (strModuleName : Text) (names : List Text) :
    (filterNames c strModuleName names).isSome = true ↔
      ∀ name ∈ names, (c.sequence (lookupName strModuleName name)).isSome = true := by
  induction names with
  | nil => exact ⟨fun _ name h => absurd h List.not_mem_nil, fun _ => rfl⟩
  | cons name names ih =>
      rw [filterNames, List.forall_mem_cons]
      cases hentry : c.sequence (lookupName strModuleName name) with
      | none => simp
      | some e =>
          dsimp only
          split_ifs
          · simpa using ih
          · simpa using ih

theorem filterSegment_isSome (c : Comments) (imp : ImportSegment) :
    (filterSegment c imp).isSome = true ↔
      ∀ m, c.module imp.strASN1ModuleName = some m → m.strName ≠ [] →
        isFiltered c.settings m.comment = false →
          ∀ name ∈ imp.strImports, (c.sequence (lookupName m.strName name)).isSome = true := by
  rw [filterSegment]
  cases hmodule : c.module imp.strASN1ModuleName with
  | none => simp
  | some m =>
      dsimp only
      by_cases hname : m.strName = []
      · rw [if_pos hname]
        exact ⟨fun _ m' hm' hne => absurd (Option.some.inj hm' ▸ hname) hne, fun _ => rfl⟩
      · rw [if_neg hname, Option.isSome_map, filterNames_isSome]
        constructor
        · intro h m' hm' _ hfiltered
          obtain rfl := Option.some.inj hm'
          rwa [if_neg (by rw [hfiltered]; exact Bool.false_ne_true)] at h
        · intro h
          by_cases hfiltered : isFiltered c.settings m.comment = true
          · rw [if_pos hfiltered]
            exact fun name hmem => absurd hmem List.not_mem_nil
          · rw [if_neg hfiltered]
            exact h m rfl hname (Bool.eq_false_iff.mpr hfiltered)

theorem mapM_isSome {α β : Type} (f : α → Option β) (xs : List α) :
    (xs.mapM f).isSome = true ↔ ∀ x ∈ xs, (f x).isSome = true := by
  induction xs with
  | nil => exact ⟨fun _ x h => absurd h List.not_mem_nil, fun _ => rfl⟩
  | cons x xs ih =>
      rw [List.mapM_cons, List.forall_mem_cons, ← ih]
      cases f x <;> cases xs.mapM f <;> simp

/-- The filter ends when all names are found, and only then. -/
theorem filterImports_isSome (c : Comments) (strImports : Text) :
    (filterImports c strImports).isSome = true ↔ c.Finds strImports := by
  rw [filterImports, Option.isSome_map, mapM_isSome]
  exact forall₂_congr fun imp _ => filterSegment_isSome c imp

/-- Whatever is cut out of the content, the filter ends. -/
def Ends (c : Comments) (content : Text) : Prop :=
  ∀ front clause rest, IsImport content front clause rest → c.Finds (cutClause clause rest)

theorem IsImport.unique {content front clause rest front' clause' rest' : Text}
    (h : IsImport content front clause rest) (h' : IsImport content front' clause' rest') :
    clause = clause' ∧ rest = rest' := by
  have hfind := h.first.symm.trans h'.first
  have htail := (Prod.mk.inj (Option.some.inj hfind)).2
  rw [List.append_assoc, List.append_assoc, List.append_assoc, List.append_assoc,
    List.append_cancel_left_eq] at htail
  have hsome := (find_semicolon h.noSemicolon rest).symm.trans
    ((congrArg (find [';']) htail).trans (find_semicolon h'.noSemicolon rest'))
  obtain ⟨hclause, hrest⟩ := Prod.mk.inj (Option.some.inj hsome)
  exact ⟨hclause, List.cons_injective hrest⟩

theorem filterFile_ne_none (c : Comments) (content : Text) :
    filterFile c content ≠ none ↔ Ends c content := by
  by_cases himport : ∃ front clause rest, IsImport content front clause rest
  · obtain ⟨front, clause, rest, himport⟩ := himport
    have hne : content ≠ [] := by
      rintro rfl
      cases himport.first
    rw [filterFile, if_neg hne, filterContent_of_isImport c himport, Option.map_map, ne_eq,
      Option.map_eq_none_iff, ← ne_eq, Option.ne_none_iff_isSome, filterImports_isSome]
    constructor
    · intro h front' clause' rest' himport'
      obtain ⟨rfl, rfl⟩ := himport.unique himport'
      exact h
    · exact fun h => h front clause rest himport
  · have hno : ∀ front clause rest, ¬ IsImport content front clause rest :=
      fun front clause rest h => himport ⟨front, clause, rest, h⟩
    refine ⟨fun _ front clause rest h => absurd h (hno front clause rest), fun _ hnone => ?_⟩
    rw [filterFile, filterContent_of_not_isImport c hno] at hnone
    split_ifs at hnone
    cases hnone

/-! ### What is written comes from the clause -/

theorem mem_getlines {delim : Char} {s name : Text} (h : name ∈ getlines delim s) :
    ∀ d ∈ name, d ∈ s ∨ d = delim := by
  intro d hd
  have hpiece : name ∈ s.splitOn delim := by
    rw [getlines] at h
    split_ifs at h
    · exact List.mem_of_mem_dropLast h
    · exact h
  have hmem : d ∈ (s.splitOn delim).flatMap (· ++ [delim]) :=
    List.mem_flatMap.mpr ⟨name, hpiece, List.mem_append_left _ hd⟩
  rw [flatMap_splitOn, List.mem_append, List.mem_singleton] at hmem
  exact hmem

theorem moduleText_subset (s : Text) : (moduleText s).1 ⊆ s ∧ (moduleText s).2 ⊆ s := by
  have hdrop : (s.dropWhile fun c => c ≠ '\n' && c ≠ ';') ⊆ s := (List.dropWhile_sublist _).subset
  constructor
  · intro d hd
    rcases List.mem_append.mp hd with hd | hd
    · exact (List.takeWhile_sublist _).subset hd
    · exact hdrop (List.mem_of_mem_take hd)
  · exact fun d hd => hdrop (List.mem_of_mem_drop hd)

theorem mem_segmentsOf {n : ℕ} {s : Text} {imp : ImportSegment} (h : imp ∈ segmentsOf n s) :
    imp.strModuleText ⊆ s ∧ ∀ name ∈ imp.strImports, ∀ d ∈ name, d ∈ s ∨ d = ',' := by
  induction n generalizing s with
  | zero => exact absurd h List.not_mem_nil
  | succ n ih =>
      rw [segmentsOf] at h
      cases hfind : find "FROM ".toList s with
      | none =>
          rw [hfind] at h
          exact absurd h List.not_mem_nil
      | some r =>
          obtain ⟨strImportedText, fromModule⟩ := r
          rw [hfind] at h
          obtain ⟨rfl, -⟩ := find_eq_some hfind
          obtain ⟨hmodule, hleft⟩ := moduleText_subset fromModule
          rcases List.mem_cons.mp h with rfl | h
          · exact ⟨fun d hd => List.mem_append_right _ (hmodule hd), fun name hname d hd =>
              (mem_getlines hname d hd).imp_left (List.mem_append_left _)⟩
          · obtain ⟨htext, hnames⟩ := ih h
            exact ⟨fun d hd => List.mem_append_right _ (hleft (htext hd)), fun name hname d hd =>
              (hnames name hname d hd).imp_left fun hmem => List.mem_append_right _ (hleft hmem)⟩

theorem filterNames_subset {c : Comments} {strModuleName : Text} {names names' : List Text}
    (h : filterNames c strModuleName names = some names') : names' ⊆ names := by
  induction names generalizing names' with
  | nil =>
      obtain rfl := Option.some.inj h
      exact fun _ hmem => hmem
  | cons name names ih =>
      rw [filterNames] at h
      cases hentry : c.sequence (lookupName strModuleName name) with
      | none =>
          rw [hentry] at h
          cases h
      | some e =>
          rw [hentry] at h
          dsimp only at h
          split_ifs at h
          · exact fun _ hmem => List.mem_cons_of_mem _ (ih h hmem)
          · obtain ⟨names'', hnames, rfl⟩ := Option.map_eq_some_iff.mp h
            exact List.cons_subset_cons _ (ih hnames)

theorem filterSegment_subset {c : Comments} {imp imp' : ImportSegment}
    (h : filterSegment c imp = some imp') :
    imp'.strModuleText = imp.strModuleText ∧ imp'.strImports ⊆ imp.strImports := by
  rw [filterSegment] at h
  cases hmodule : c.module imp.strASN1ModuleName with
  | none =>
      rw [hmodule] at h
      obtain rfl := Option.some.inj h
      exact ⟨rfl, fun _ hmem => hmem⟩
  | some m =>
      rw [hmodule] at h
      have hfewer : (if isFiltered c.settings m.comment then [] else imp.strImports) ⊆
          imp.strImports := by
        split_ifs
        · exact List.nil_subset _
        · exact fun _ hmem => hmem
      dsimp only at h
      by_cases hname : m.strName = []
      · rw [if_pos hname] at h
        obtain rfl := Option.some.inj h
        exact ⟨rfl, hfewer⟩
      · rw [if_neg hname] at h
        obtain ⟨names, hnames, rfl⟩ := Option.map_eq_some_iff.mp h
        exact ⟨rfl, fun _ hmem => hfewer (filterNames_subset hnames hmem)⟩

theorem mem_joined {strImports : List Text} :
    ∀ d ∈ joined strImports, (∃ name ∈ strImports, d ∈ name) ∨ d = ',' := by
  have hfold {strImports : List Text} (acc : Text) :
      ∀ d ∈ strImports.foldl (fun s name => if s = [] then name else s ++ [','] ++ name) acc,
        d ∈ acc ∨ (∃ name ∈ strImports, d ∈ name) ∨ d = ',' := by
    induction strImports generalizing acc with
    | nil => exact fun d hd => .inl hd
    | cons name names ih =>
        intro d hd
        have hin : d ∈ name → ∃ name' ∈ name :: names, d ∈ name' := fun hmem =>
          ⟨name, List.mem_cons_self, hmem⟩
        rcases ih _ d hd with hmem | ⟨name', hname, hmem⟩ | rfl
        · dsimp only at hmem
          split_ifs at hmem
          · exact .inr (.inl (hin hmem))
          · rw [List.mem_append, List.mem_append, List.mem_singleton] at hmem
            rcases hmem with (hmem | rfl) | hmem
            · exact .inl hmem
            · exact .inr (.inr rfl)
            · exact .inr (.inl (hin hmem))
        · exact .inr (.inl ⟨name', List.mem_cons_of_mem _ hname, hmem⟩)
        · exact .inr (.inr rfl)
  intro d hd
  exact (hfold [] d hd).resolve_left List.not_mem_nil

theorem ImportSegment.mem_text {imp : ImportSegment} : ∀ d ∈ imp.text,
    d ∈ imp.strModuleText ∨ (∃ name ∈ imp.strImports, d ∈ name) ∨ d = ',' ∨ d = ' ' := by
  intro d hd
  rw [text] at hd
  split_ifs at hd
  · exact absurd hd List.not_mem_nil
  · rcases List.mem_append.mp hd with hd | hd
    · have hspaced : d ∈ spaced (joined imp.strImports) := (List.dropWhile_sublist _).subset hd
      rw [spaced] at hspaced
      split_ifs at hspaced
      · rcases List.mem_append.mp hspaced with hd | hd
        · exact .inr ((mem_joined d hd).imp_right .inl)
        · exact .inr (.inr (.inr (List.mem_singleton.mp hd)))
      · exact .inr ((mem_joined d hspaced).imp_right .inl)
    · exact .inl hd

theorem mapM_mem {α β : Type} {f : α → Option β} {xs : List α} {ys : List β}
    (h : xs.mapM f = some ys) : ∀ y ∈ ys, ∃ x ∈ xs, f x = some y := by
  induction xs generalizing ys with
  | nil =>
      obtain rfl := Option.some.inj h
      exact fun y hy => absurd hy List.not_mem_nil
  | cons x xs ih =>
      rw [List.mapM_cons] at h
      obtain ⟨y, hy, h⟩ := Option.bind_eq_some_iff.mp h
      obtain ⟨ys', hys, h⟩ := Option.bind_eq_some_iff.mp h
      obtain rfl := Option.some.inj h
      exact List.forall_mem_cons.mpr ⟨⟨x, List.mem_cons_self, hy⟩, fun y' hy' =>
        (ih hys y' hy').imp fun x' hx => ⟨List.mem_cons_of_mem _ hx.1, hx.2⟩⟩

theorem mem_filterImports {c : Comments} {strImports result : Text}
    (h : filterImports c strImports = some result) :
    ∀ d ∈ result, d ∈ strImports ∨ d = ',' ∨ d = ' ' := by
  obtain ⟨imports, himports, rfl⟩ := Option.map_eq_some_iff.mp h
  intro d hd
  obtain ⟨imp', himp', hd⟩ := List.mem_flatMap.mp hd
  obtain ⟨imp, himp, hfilter⟩ := mapM_mem himports imp' himp'
  obtain ⟨htext, hnames⟩ := filterSegment_subset hfilter
  obtain ⟨hmodule, hall⟩ := mem_segmentsOf himp
  rcases imp'.mem_text d hd with hmem | ⟨name, hname, hmem⟩ | hmem
  · exact .inl (hmodule (htext ▸ hmem))
  · exact (hall name (hnames hname) d hmem).imp_right .inl
  · exact .inr hmem

/-! ### The filter is exact -/

/-- The filter ends, changes nothing but the clause, and keeps there what is not filtered. To all
files it does what is `written`. -/
structure FilteredExactly (written : Text → Text) (c : Comments) (content : Text) : Prop where
  ends : filterFile c content ≠ none
  same : (∀ front clause rest, ¬ IsImport content front clause rest) → content ≠ [] →
    filterFile c content = some (some (written content))
  outside : ∀ front clause rest, IsImport content front clause rest →
    ∃ clause', filterFile c content = some (some (written (withClause front clause' rest)))
  kept : ∀ front clause rest contents, IsImport content front clause rest →
    IsClause clause contents → Filtered written c content front rest contents

/-- The condition on a file: its clause is not empty, all names are found, and the clause is laid
out in lines. -/
structure Filterable (c : Comments) (content : Text) : Prop where
  nonempty : ∀ front clause rest, IsImport content front clause rest → clause ≠ []
  ends : Ends c content
  plain : ∀ front clause rest contents, IsImport content front clause rest →
    IsClause clause contents → ∃ gs tail, WellFormed gs tail ∧ clause = clauseText gs tail ∧
      gs.map ImportGroup.content = contents ∧ Plain c gs tail

/-- A file of whole lines without tilde comments, and without a tilde in its clause. -/
structure Untilded (content : Text) : Prop where
  whole : WholeLines content
  clause : ∀ front clause rest, IsImport content front clause rest → '~' ∉ clause

/-- Of such a file all lines are written. -/
theorem Untilded.writtenLines_eq {content front clause clause' rest : Text} (h : Untilded content)
    (himport : IsImport content front clause rest) (hclause : '~' ∉ clause') :
    writtenLines (withClause front clause' rest) = withClause front clause' rest := by
  have hwhole : WholeLines (withClause front clause' rest) :=
    WholeLines.replace (himport.eq ▸ h.whole) hclause
  exact hwhole.writtenLines_eq

theorem IsClause.tilde {clause : Text} {contents : List (List Text × Text)}
    (h : IsClause clause contents) : '~' ∉ clause := by
  obtain ⟨gs, tail, hwf, rfl, -⟩ := h
  exact notMem_clauseText hwf.groups hwf.tail (by decide) (by decide) (by decide)

/-- A tilde in the new clause comes from the old one. -/
theorem Filterable.outside {c : Comments} {content front clause rest : Text}
    (h : Filterable c content) (himport : IsImport content front clause rest) :
    ∃ clause', filterFile c content =
        some (some (writtenLines (withClause front clause' rest))) ∧
      ('~' ∉ clause → '~' ∉ clause') := by
  have hne := h.nonempty _ _ _ himport
  have hcontent : content ≠ [] := by
    rintro rfl
    cases himport.first
  obtain ⟨result, hresult⟩ := Option.isSome_iff_exists.mp
    ((filterImports_isSome c _).mpr (h.ends _ _ _ himport))
  obtain ⟨ch, hch⟩ : ∃ ch, clause.getLast? = some ch := ⟨_, List.getLast?_eq_some_getLast hne⟩
  refine ⟨(result.takeWhile fun ch => ch ≠ '\x00') ++ [ch], ?_, fun htilde => ?_⟩
  · rw [filterFile, if_neg hcontent, filterContent_of_isImport c himport, hresult, if_neg hne, hch,
      Option.map_some, Option.map_some, withClause]
    simp
  · rw [List.mem_append, not_or]
    constructor
    · intro hmem
      rcases mem_filterImports hresult '~' ((List.takeWhile_sublist _).subset hmem) with hmem | hmem
      · rw [cutClause, if_neg hne] at hmem
        exact htilde (List.mem_of_mem_dropLast hmem)
      · exact absurd hmem (by decide)
    · exact fun hmem => htilde (List.mem_singleton.mp hmem ▸ List.mem_of_getLast? hch)

theorem Filterable.filteredExactly {c : Comments} {content : Text} (h : Filterable c content) :
    FilteredExactly writtenLines c content := by
  refine ⟨(filterFile_ne_none c content).mpr h.ends, fun hno hne => ?_, ?_, ?_⟩
  · rw [filterFile, if_neg hne, filterContent_of_not_isImport c hno, Option.map_some]
  · intro front clause rest himport
    obtain ⟨clause', hclause, -⟩ := h.outside himport
    exact ⟨clause', hclause⟩
  · intro front clause rest contents himport hclause
    obtain ⟨gs, tail, hwf, rfl, rfl, hplain⟩ := h.plain front clause rest contents himport hclause
    exact filtered_of_plain himport hwf hplain

/-- Without tilde comments what is written is the file. -/
theorem FilteredExactly.literal {c : Comments} {content : Text} (h : Filterable c content)
    (huntilded : Untilded content) : FilteredExactly id c content := by
  obtain ⟨hends, hsame, -, hkept⟩ := h.filteredExactly
  refine ⟨hends, fun hno hne => ?_, ?_, ?_⟩
  · rw [hsame hno hne, huntilded.whole.writtenLines_eq, id]
  · intro front clause rest himport
    obtain ⟨clause', hclause, htilde⟩ := h.outside himport
    refine ⟨clause', hclause.trans ?_⟩
    rw [huntilded.writtenLines_eq himport (htilde (huntilded.clause _ _ _ himport)), id]
  · intro front clause rest contents himport hclause
    obtain ⟨clause', hwritten, hclause'⟩ := hkept front clause rest contents himport hclause
    refine ⟨clause', hwritten.trans ?_, hclause'⟩
    rw [huntilded.writtenLines_eq himport hclause'.tilde, id]

/-- A module with a private type, and no entry for a value. -/
def sampleComments : Comments where
  settings := ⟨false, 0⟩
  mapModules := [⟨"n".toList, "N".toList, Comment.none⟩]
  mapSequences := [⟨"n::A".toList, ⟨true, 0⟩⟩, ⟨"n::B".toList, Comment.none⟩]
  mapOperations := []

def sampleContent : Text := "X\nIMPORTS\n A,\n B FROM N\n;\nEND\n".toList

def sampleGroup : ImportGroup where
  names := [⟨"\n ".toList, "A".toList, []⟩, ⟨"\n ".toList, "B".toList, " ".toList⟩]
  gap := " ".toList
  module := "N".toList
  close := "\n".toList

theorem sampleGroup_tidy : sampleGroup.Tidy := by
  have hnames : ∀ n ∈ sampleGroup.names, IsBlank n.lead ∧ IsWord n.name ∧ IsBlank n.trail := by
    decide
  refine ⟨⟨by decide, fun n hn => ?_, by decide, by decide, by decide,
    by decide⟩, by decide, ⟨[], rfl, List.not_mem_nil⟩⟩
  obtain ⟨hlead, hname, htrail⟩ := hnames n hn
  exact ⟨hlead, hname, htrail⟩

theorem sample_plain : Plain sampleComments [sampleGroup] [] := by
  refine ⟨List.forall_mem_singleton.mpr sampleGroup_tidy, by decide, fun g hg => ?_, by decide,
    List.forall_mem_singleton.mpr fun m hm => ?_, by decide⟩
  · exact absurd hg List.not_mem_nil
  · obtain rfl := Option.some.inj ((by decide : sampleComments.module "N".toList =
      some ⟨"n".toList, "N".toList, Comment.none⟩).symm.trans hm)
    exact ⟨by decide, fun _ => by decide⟩

theorem sample_isImport :
    IsImport sampleContent "X".toList (clauseText [sampleGroup] []) "\nEND\n".toList :=
  ⟨by decide, by decide⟩

theorem sample_untilded : Untilded sampleContent := by
  refine ⟨⟨by decide, by decide⟩, fun front clause rest h => ?_⟩
  obtain ⟨rfl, -⟩ := sample_isImport.unique h
  decide

theorem sample_filterable : Filterable sampleComments sampleContent := by
  have himport := sample_isImport
  have hwf : WellFormed [sampleGroup] [] :=
    ⟨List.forall_mem_singleton.mpr sampleGroup_tidy.proper, by decide, by decide,
      fun g hg => absurd hg List.not_mem_nil⟩
  refine ⟨?_, ?_, ?_⟩
  · rintro front clause rest h
    obtain ⟨rfl, -⟩ := himport.unique h
    decide
  · rintro front clause rest h
    obtain ⟨rfl, rfl⟩ := himport.unique h
    exact (filterImports_isSome _ _).mp (by decide)
  · rintro front clause rest contents h hclause
    obtain ⟨rfl, -⟩ := himport.unique h
    exact ⟨[sampleGroup], [], hwf, rfl, IsClause.unique ⟨_, _, hwf, rfl, rfl⟩ hclause, sample_plain⟩

end Esnacc.Compiler.FilteredImports
