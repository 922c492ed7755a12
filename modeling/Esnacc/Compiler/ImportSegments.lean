import Mathlib
import Esnacc.Compiler.CommentParser

/-!
`FilterImports` of the comment parser: an import clause is taken apart, filtered by what is known of
the imported modules, and put together again.
-/

namespace Esnacc.Compiler.FilteredImports

open CommentParser

/-! ### Strings -/

/-- `find`: what is in front of the first occurrence, and what begins with it. -/
def find (str : Text) : Text → Option (Text × Text)
  | [] => none
  | c :: s =>
      if str.isPrefixOf (c :: s) then some ([], c :: s)
      else (find str s).map fun r => (c :: r.1, r.2)

def ltrimspace (s : Text) : Text := s.dropWhile fun c => c = ' '

/-- The pieces that `getline` finds: nothing follows a delimiter at the end. -/
def getlines (delim : Char) (s : Text) : List Text :=
  let pieces := s.splitOn delim
  if pieces.getLast? = some [] then pieces.dropLast else pieces

/-! ### What is known -/

/-- An entry of `mapModules` with its key. -/
structure ModuleEntry where
  strName : Text
  strASN1ModuleName : Text
  comment : Comment
  deriving DecidableEq

/-- An entry of `mapSequences` or `mapOperations` with its key. -/
structure Entry where
  key : Text
  comment : Comment
  deriving DecidableEq

/-- `gComments`, and the settings of the filter. -/
structure Comments where
  settings : Settings
  mapModules : List ModuleEntry
  mapSequences : List Entry
  mapOperations : List Entry

/-- The first module with this name. -/
def Comments.module (c : Comments) (strASN1ModuleName : Text) : Option ModuleEntry :=
  c.mapModules.find? fun m => m.strASN1ModuleName = strASN1ModuleName

def lookupName (strModuleName name : Text) : Text := strModuleName ++ "::".toList ++ trim name

def Comments.sequence (c : Comments) (strLookupName : Text) : Option Entry :=
  c.mapSequences.find? fun e => e.key = strLookupName

/-! ### `FilterImports` -/

structure ImportSegment where
  strModuleText : Text
  strImports : List Text
  deriving DecidableEq

def ImportSegment.strASN1ModuleName (imp : ImportSegment) : Text :=
  trim (imp.strModuleText.drop 5)

/-- The text of a module ends behind the next line break or semicolon. -/
def moduleText (s : Text) : Text × Text :=
  let rest := s.dropWhile fun c => c ≠ '\n' && c ≠ ';'
  ((s.takeWhile fun c => c ≠ '\n' && c ≠ ';') ++ rest.take 1, rest.drop 1)

/-- The segments of a text of this many characters at most. -/
def segmentsOf : ℕ → Text → List ImportSegment
  | 0, _ => []
  | n + 1, s =>
      match find "FROM ".toList s with
      | none => []
      | some (strImportedText, fromModule) =>
          ⟨(moduleText fromModule).1, getlines ',' strImportedText⟩ ::
            segmentsOf n (moduleText fromModule).2

def segments (strImports : Text) : List ImportSegment := segmentsOf strImports.length strImports

/-- The loop over the names of a segment, which goes on for ever at a name without an entry. -/
def filterNames (c : Comments) (strModuleName : Text) : List Text → Option (List Text)
  | [] => some []
  | name :: names =>
      match c.sequence (lookupName strModuleName name) with
      -- `continue` without a step of the iterator
      | none => none
      | some e =>
          if isFiltered c.settings e.comment then filterNames c strModuleName names
          else (filterNames c strModuleName names).map (name :: ·)

/-- One step of the loop over the segments; in a release build an unknown module is passed
over. -/
def filterSegment (c : Comments) (imp : ImportSegment) : Option ImportSegment :=
  match c.module imp.strASN1ModuleName with
  -- `assert(FALSE)`, and on with the next segment
  | none => some imp
  | some m =>
      let strImports := if isFiltered c.settings m.comment then [] else imp.strImports
      if m.strName = [] then some { imp with strImports := strImports }
      else (filterNames c m.strName strImports).map fun names => { imp with strImports := names }

/-- `strFilteredImport`, before it gets its blank. -/
def joined (strImports : List Text) : Text :=
  strImports.foldl (fun s name => if s = [] then name else s ++ [','] ++ name) []

/-- What is appended to `strResult` for a segment. -/
def ImportSegment.text (imp : ImportSegment) : Text :=
  if imp.strImports = [] then []
  else
    let strFilteredImport := joined imp.strImports
    ltrimspace (if strFilteredImport ≠ [] ∧ strFilteredImport.getLast? ≠ some ' ' then
      strFilteredImport ++ [' '] else strFilteredImport) ++ imp.strModuleText

/-- Nothing when it does not end. -/
def filterImports (c : Comments) (strImports : Text) : Option Text :=
  ((segments strImports).mapM (filterSegment c)).map fun imports => imports.flatMap (·.text)

/-! ### Import clauses -/

/-- A name with the white space around it. -/
structure ImportedName where
  lead : Text
  name : Text
  trail : Text
  deriving DecidableEq

/-- Names, `FROM` and a module, with the white space between. -/
structure ImportGroup where
  names : List ImportedName
  gap : Text
  module : Text
  close : Text
  deriving DecidableEq

def IsBlank (s : Text) : Prop := ∀ c ∈ s, isSpace c = true

instance (s : Text) : Decidable (IsBlank s) := List.decidableBAll (fun c => isSpace c = true) s

/-- A word of ASN.1 that is not the keyword. -/
def IsWord (s : Text) : Prop :=
  s ≠ [] ∧ s ≠ "FROM".toList ∧ ∀ c ∈ s, (c.isAlphanum || c = '-') = true

instance (s : Text) : Decidable (IsWord s) :=
  have := List.decidableBAll (fun c : Char => (c.isAlphanum || c = '-') = true) s
  inferInstanceAs (Decidable (_ ∧ _ ∧ _))

namespace ImportedName

def text (n : ImportedName) : Text := n.lead ++ n.name ++ n.trail

structure Proper (n : ImportedName) : Prop where
  lead : IsBlank n.lead
  name : IsWord n.name
  trail : IsBlank n.trail

end ImportedName

namespace ImportGroup

def namesText (g : ImportGroup) : Text := [','].intercalate (g.names.map ImportedName.text)

def text (g : ImportGroup) : Text := g.namesText ++ "FROM".toList ++ g.gap ++ g.module ++ g.close

/-- The names are apart from one another and from the module. -/
structure Proper (g : ImportGroup) : Prop where
  names_ne : g.names ≠ []
  names : ∀ n ∈ g.names, n.Proper
  trail : ∀ n ∈ g.names.getLast?, n.trail ≠ []
  gap : IsBlank g.gap ∧ g.gap ≠ []
  module : IsWord g.module
  close : IsBlank g.close

/-- What a group says. -/
def content (g : ImportGroup) : List Text × Text := (g.names.map ImportedName.name, g.module)

end ImportGroup

/-- The text between `IMPORTS` and the semicolon. -/
def clauseText (gs : List ImportGroup) (tail : Text) : Text := gs.flatMap ImportGroup.text ++ tail

/-- Groups that are apart from one another and from `IMPORTS`. -/
structure WellFormed (gs : List ImportGroup) (tail : Text) : Prop where
  groups : ∀ g ∈ gs, g.Proper
  tail : IsBlank tail
  first : ∀ g ∈ gs.head?, ∀ n ∈ g.names.head?, n.lead ≠ []
  close : ∀ g ∈ gs.dropLast, g.close ≠ []

/-- The text is a clause with these names and modules. -/
def IsClause (clause : Text) (contents : List (List Text × Text)) : Prop :=
  ∃ gs tail, WellFormed gs tail ∧ clause = clauseText gs tail ∧
    gs.map ImportGroup.content = contents

/-! ### What is to be kept -/

/-- What is known of an imported name. -/
def Comments.entry (c : Comments) (strLookupName : Text) : Option Entry :=
  (c.sequence strLookupName).or (c.mapOperations.find? fun e => e.key = strLookupName)

/-- An imported name is not filtered. -/
def Comments.keeps (c : Comments) (module name : Text) : Bool :=
  (c.module module).all fun m =>
    !isFiltered c.settings m.comment &&
      (c.entry (lookupName m.strName name)).all fun e => !isFiltered c.settings e.comment

/-- The names that are not filtered, without the modules of which none is left. -/
def Comments.kept (c : Comments) (contents : List (List Text × Text)) : List (List Text × Text) :=
  (contents.map fun g => (g.1.filter (c.keeps g.2), g.2)).filter fun g => g.1 ≠ []

/-! ### Finding -/

theorem find_cons {str s : Text} {c : Char} (h : str.isPrefixOf (c :: s) = false) :
    find str (c :: s) = (find str s).map fun r => (c :: r.1, r.2) := by
  rw [find, if_neg (by rw [h]; exact Bool.false_ne_true)]

theorem find_self {str s : Text} (h : str ≠ []) : find str (str ++ s) = some ([], str ++ s) := by
  cases str with
  | nil => exact absurd rfl h
  | cons c str =>
      rw [List.cons_append, find, if_pos]
      rw [← List.cons_append, List.isPrefixOf_iff_prefix]
      exact List.prefix_append _ _

/-- A character that does not begin what is looked for. -/
theorem find_cons_of_ne {d : Char} {str s : Text} {c : Char} (h : d ≠ c) :
    find (d :: str) (c :: s) = (find (d :: str) s).map fun r => (c :: r.1, r.2) := by
  apply find_cons
  rw [List.isPrefixOf, beq_eq_false_iff_ne.mpr h, Bool.false_and]

theorem find_append_of_forall {d : Char} {str t : Text} (s : Text) (h : ∀ c ∈ t, c ≠ d) :
    find (d :: str) (t ++ s) = (find (d :: str) s).map fun r => (t ++ r.1, r.2) := by
  induction t with
  | nil => exact Option.map_id'.symm
  | cons c t ih =>
      rw [List.forall_mem_cons] at h
      rw [List.cons_append, find_cons_of_ne h.1.symm, ih h.2, Option.map_map]
      rfl

/-! ### Words and blanks -/

theorem isSpace_of_isAlphanum : ∀ c ∈ [' ', '\n', '\r', '\t', '\x0c', '\x0b'],
    (c.isAlphanum || c = '-') = false := by
  intro c hc
  simp only [List.mem_cons, List.not_mem_nil, or_false] at hc
  rcases hc with rfl | rfl | rfl | rfl | rfl | rfl <;> decide

theorem IsWord.isSpace {w : Text} (h : IsWord w) : ∀ c ∈ w, isSpace c = false := by
  intro c hc
  by_contra hspace
  have hin : c ∈ [' ', '\n', '\r', '\t', '\x0c', '\x0b'] :=
    of_decide_eq_true ((Bool.not_eq_false _).mp hspace)
  have hno := isSpace_of_isAlphanum c hin
  rw [h.2.2 c hc] at hno
  cases hno

/-- A word does not contain what is neither a letter, nor a digit, nor a hyphen. -/
theorem IsWord.notMem {w : Text} (h : IsWord w) {d : Char}
    (hd : (d.isAlphanum || d = '-') = false) : d ∉ w := by
  intro hmem
  rw [h.2.2 d hmem] at hd
  cases hd

theorem IsBlank.notMem {s : Text} (h : IsBlank s) {d : Char} (hd : isSpace d = false) : d ∉ s := by
  intro hmem
  rw [h d hmem] at hd
  cases hd

/-- White space without a break is not the begin of a keyword. -/
theorem find_blank {d : Char} {str t : Text} (ht : IsBlank t) (hd : isSpace d = false) (s : Text) :
    find (d :: str) (t ++ s) = (find (d :: str) s).map fun r => (t ++ r.1, r.2) :=
  find_append_of_forall s fun _ hc heq => ht.notMem hd (heq ▸ hc)

theorem isAlphanum_of_mem_from : ∀ c ∈ "FROM".toList, (c.isAlphanum || c = '-') = true := by
  intro c hc
  have hletter : c ∈ ['F', 'R', 'O', 'M'] := hc
  simp only [List.mem_cons, List.not_mem_nil, or_false] at hletter
  rcases hletter with rfl | rfl | rfl | rfl <;> decide

theorem isBlank_append {s t : Text} : IsBlank (s ++ t) ↔ IsBlank s ∧ IsBlank t :=
  List.forall_mem_append

theorem dropWhile_blank {s t : Text} (hs : IsBlank s) (ht : ∀ c ∈ t.head?, isSpace c = false) :
    (s ++ t).dropWhile isSpace = t := by
  induction s with
  | nil =>
      cases t with
      | nil => rfl
      | cons c t => exact List.dropWhile_cons_of_neg (by rw [ht c rfl]; exact Bool.false_ne_true)
  | cons c s ih =>
      have hs' := List.forall_mem_cons.mp hs
      rw [List.cons_append, List.dropWhile_cons_of_pos hs'.1, ih hs'.2]

/-- White space around a word is taken off. -/
theorem trim_word {lead w trail : Text} (hlead : IsBlank lead) (hw : IsWord w)
    (htrail : IsBlank trail) : trim (lead ++ w ++ trail) = w := by
  have hhead : ∀ c ∈ (w ++ trail).head?, isSpace c = false := by
    intro c hc
    cases w with
    | nil => exact absurd rfl hw.1
    | cons d w =>
        obtain rfl := Option.mem_some_iff.mp hc
        exact hw.isSpace _ List.mem_cons_self
  have hlast : ∀ c ∈ w.reverse.head?, isSpace c = false := by
    intro c hc
    exact hw.isSpace c (List.mem_reverse.mp (List.mem_of_mem_head? hc))
  have hreverse : IsBlank trail.reverse := fun c hc => htrail c (List.mem_reverse.mp hc)
  rw [trim, List.append_assoc, dropWhile_blank hlead hhead, List.reverse_append,
    dropWhile_blank hreverse hlast, List.reverse_reverse]

/-! ### Names -/

/-- The condition on a name: an occurrence of `FROM ` does not begin in it. -/
def NoFrom (w : Text) : Prop := ¬ "FROM".toList <:+ w

instance (w : Text) : Decidable (NoFrom w) :=
  inferInstanceAs (Decidable (¬ "FROM".toList <:+ w))

theorem find_word {w s : Text} (hw : ∀ c ∈ w, isSpace c = false) (hfrom : NoFrom w)
    (hs : ∀ c ∈ s.head?, isSpace c = true ∨ c = ',') :
    find "FROM ".toList (w ++ s) = (find "FROM ".toList s).map fun r => (w ++ r.1, r.2) := by
  induction w with
  | nil => exact Option.map_id'.symm
  | cons c w ih =>
      have hnext := ih (fun d hd => hw d (List.mem_cons_of_mem _ hd))
        fun hsuffix => hfrom (hsuffix.trans (List.suffix_cons _ _))
      have hno : "FROM ".toList.isPrefixOf (c :: (w ++ s)) = false := by
        by_contra htrue
        obtain ⟨rest, hrest⟩ := List.isPrefixOf_iff_prefix.mp ((Bool.not_eq_false _).mp htrue)
        replace hrest : 'F' :: 'R' :: 'O' :: 'M' :: ' ' :: rest = c :: (w ++ s) := hrest
        -- the word is shorter than the keyword, the keyword, or goes on behind it
        rcases w with _ | ⟨c₁, _ | ⟨c₂, _ | ⟨c₃, _ | ⟨c₄, w⟩⟩⟩⟩
        · obtain ⟨-, rfl⟩ := List.cons.inj hrest
          exact absurd (hs 'R' rfl) (by decide)
        · obtain ⟨-, -, rfl⟩ := (by simpa using hrest : _ ∧ _ ∧ _ = s)
          exact absurd (hs 'O' rfl) (by decide)
        · obtain ⟨-, -, -, rfl⟩ := (by simpa using hrest : _ ∧ _ ∧ _ ∧ _ = s)
          exact absurd (hs 'M' rfl) (by decide)
        · obtain ⟨rfl, rfl, rfl, rfl, -⟩ := (by simpa using hrest : _ ∧ _ ∧ _ ∧ _ ∧ _ = s)
          exact hfrom (List.suffix_refl _)
        · obtain ⟨-, -, -, -, rfl, -⟩ := (by simpa using hrest :
            _ ∧ _ ∧ _ ∧ _ ∧ ' ' = c₄ ∧ _ = w ++ s)
          exact absurd (hw ' ' (by simp)) (by decide)
      rw [List.cons_append, find_cons hno, hnext, Option.map_map]
      rfl

theorem find_text {n : ImportedName} (h : n.Proper) (hfrom : NoFrom n.name) {s : Text}
    (hs : ∀ c ∈ (n.trail ++ s).head?, isSpace c = true ∨ c = ',') :
    find "FROM ".toList (n.text ++ s) =
      (find "FROM ".toList s).map fun r => (n.text ++ r.1, r.2) := by
  have hblank {t : Text} (ht : IsBlank t) (s : Text) : find "FROM ".toList (t ++ s) =
      (find "FROM ".toList s).map fun r => (t ++ r.1, r.2) :=
    find_blank ht (by decide) s
  rw [ImportedName.text, List.append_assoc, List.append_assoc, hblank h.lead,
    find_word h.name.isSpace hfrom hs, hblank h.trail, Option.map_map, Option.map_map]
  congr 1
  funext r
  simp

/-- The names of a group end in front of its `FROM`. -/
theorem find_names {ns : List ImportedName} (hne : ns ≠ []) (h : ∀ n ∈ ns, n.Proper)
    (hfrom : ∀ n ∈ ns, NoFrom n.name) (htrail : ∀ n ∈ ns.getLast?, n.trail ≠ []) (s : Text) :
    find "FROM ".toList ([','].intercalate (ns.map ImportedName.text) ++ ("FROM ".toList ++ s)) =
      some ([','].intercalate (ns.map ImportedName.text), "FROM ".toList ++ s) := by
  induction ns with
  | nil => exact absurd rfl hne
  | cons n ns ih =>
      rw [List.forall_mem_cons] at h hfrom
      cases ns with
      | nil =>
          have hn : n.trail ≠ [] := htrail n rfl
          rw [List.map_cons, List.map_nil, List.intercalate_singleton, find_text h.1 hfrom.1,
            find_self (by decide), Option.map_some, List.append_nil]
          cases htrail : n.trail with
          | nil => exact absurd htrail hn
          | cons c t =>
              intro d hd
              obtain rfl := Option.mem_some_iff.mp hd
              exact .inl (h.1.trail _ (htrail ▸ List.mem_cons_self))
      | cons n' ns =>
          have hrest := ih (List.cons_ne_nil _ _) h.2 hfrom.2 (by
            rw [List.getLast?_cons_cons] at htrail
            exact htrail)
          rw [List.map_cons, List.map_cons, List.intercalate_cons_cons, List.append_assoc,
            List.append_assoc, find_text h.1 hfrom.1, ← List.map_cons]
          · rw [List.singleton_append, show "FROM ".toList = 'F' :: "ROM ".toList from rfl,
              find_cons_of_ne (by decide), show 'F' :: "ROM ".toList = "FROM ".toList from rfl,
              hrest, Option.map_some, Option.map_some, List.append_assoc]
            rfl
          · intro d hd
            cases htrail : n.trail with
            | nil =>
                rw [htrail] at hd
                obtain rfl := Option.mem_some_iff.mp hd
                exact .inr rfl
            | cons c t =>
                rw [htrail] at hd
                obtain rfl := Option.mem_some_iff.mp hd
                exact .inl (h.1.trail _ (htrail ▸ List.mem_cons_self))

/-! ### Segments -/

/-- A group that is found: there is a blank behind `FROM`, and the module stands in the same
line. -/
structure ImportGroup.Tidy (g : ImportGroup) : Prop where
  proper : g.Proper
  noFrom : ∀ n ∈ g.names, NoFrom n.name
  gap : ∃ gap, g.gap = ' ' :: gap ∧ '\n' ∉ gap

/-- The segment that a group becomes. -/
def ImportGroup.segment (g : ImportGroup) : ImportSegment :=
  ⟨"FROM".toList ++ g.gap ++ g.module ++ g.close, g.names.map ImportedName.text⟩

theorem moduleText_line {l : Text} (h : ∀ c ∈ l, c ≠ '\n' ∧ c ≠ ';') (rest : Text) :
    moduleText (l ++ '\n' :: rest) = (l ++ ['\n'], rest) ∧ moduleText l = (l, []) := by
  have hall : ∀ c ∈ l, (c ≠ '\n' && c ≠ ';') = true := by
    intro c hc
    simpa using h c hc
  have htake : (l.takeWhile fun c => c ≠ '\n' && c ≠ ';') = l := List.takeWhile_eq_self_iff.mpr hall
  have hdrop : (l.dropWhile fun c => c ≠ '\n' && c ≠ ';') = [] := List.dropWhile_eq_nil_iff.mpr hall
  constructor
  · rw [moduleText, List.takeWhile_append_of_pos hall, List.dropWhile_append_of_pos hall,
      List.takeWhile_cons_of_neg (by decide), List.dropWhile_cons_of_neg (by decide),
      List.append_nil]
    rfl
  · rw [moduleText, htake, hdrop, List.take_nil, List.append_nil]
    rfl

theorem ImportedName.Proper.comma {n : ImportedName} (h : n.Proper) : ',' ∉ n.text := by
  rw [ImportedName.text, List.mem_append, List.mem_append, not_or, not_or]
  exact ⟨⟨h.lead.notMem (by decide), h.name.notMem (by decide)⟩, h.trail.notMem (by decide)⟩

theorem ImportedName.Proper.text_ne {n : ImportedName} (h : n.Proper) : n.text ≠ [] := by
  intro heq
  rw [ImportedName.text, List.append_eq_nil_iff, List.append_eq_nil_iff] at heq
  exact h.name.1 heq.1.2

theorem getlines_names {ns : List ImportedName} (hne : ns ≠ []) (h : ∀ n ∈ ns, n.Proper) :
    getlines ',' ([','].intercalate (ns.map ImportedName.text)) = ns.map ImportedName.text := by
  have hsplit : ([','].intercalate (ns.map ImportedName.text)).splitOn ',' =
      ns.map ImportedName.text :=
    List.splitOn_intercalate ',' (List.forall_mem_map.mpr fun n hn => (h n hn).comma)
      fun hnil => hne (List.map_eq_nil_iff.mp hnil)
  rw [getlines, hsplit]
  refine if_neg fun hlast => ?_
  obtain ⟨n, hn, htext⟩ := List.mem_map.mp (List.mem_of_getLast? hlast)
  exact (h n hn).text_ne htext

/-- What stands behind the names of a group, up to the end of the line. -/
theorem ImportGroup.Tidy.line {g : ImportGroup} (h : g.Tidy) {inline : Text}
    (hblank : IsBlank inline) (hinline : '\n' ∉ inline) :
    ∀ c ∈ "FROM".toList ++ g.gap ++ g.module ++ inline, c ≠ '\n' ∧ c ≠ ';' := by
  obtain ⟨gap, hgap, hnewline⟩ := h.gap
  have hgapBlank := h.proper.gap.1
  intro c hc
  rw [List.mem_append, List.mem_append, List.mem_append] at hc
  rcases hc with ((hc | hc) | hc) | hc
  · have hletter := isAlphanum_of_mem_from c hc
    constructor <;> rintro rfl <;> exact absurd hletter (by decide)
  · refine ⟨fun heq => ?_, fun heq => hgapBlank.notMem (by decide) (heq ▸ hc)⟩
    rw [hgap, heq] at hc
    rcases List.mem_cons.mp hc with hc | hc
    · exact absurd hc (by decide)
    · exact hnewline hc
  · exact ⟨fun heq => h.proper.module.notMem (by decide) (heq ▸ hc),
      fun heq => h.proper.module.notMem (by decide) (heq ▸ hc)⟩
  · exact ⟨fun heq => hinline (heq ▸ hc), fun heq => hblank.notMem (by decide) (heq ▸ hc)⟩

/-- A group that ends its line is one segment. -/
theorem segmentsOf_group {g : ImportGroup} (h : g.Tidy) {inline : Text}
    (hclose : g.close = inline ++ ['\n']) (hinline : '\n' ∉ inline) (n : ℕ) (rest : Text) :
    segmentsOf (n + 1) (g.text ++ rest) = g.segment :: segmentsOf n rest := by
  obtain ⟨gap, hgap, hnewline⟩ := h.gap
  have hblank : IsBlank inline := fun c hc =>
    h.proper.close c (hclose ▸ List.mem_append_left _ hc)
  have htext : g.text ++ rest = g.namesText ++ ("FROM ".toList ++
      (gap ++ g.module ++ inline ++ '\n' :: rest)) := by
    rw [ImportGroup.text, hgap, hclose]
    simp
  have hline : "FROM ".toList ++ (gap ++ g.module ++ inline ++ '\n' :: rest) =
      "FROM".toList ++ g.gap ++ g.module ++ inline ++ '\n' :: rest := by
    rw [hgap]
    simp
  have hmodule := (moduleText_line (h.line hblank hinline) rest).1
  rw [segmentsOf, htext, ImportGroup.namesText,
    find_names h.proper.names_ne h.proper.names h.noFrom h.proper.trail, hline]
  dsimp only
  rw [hmodule, getlines_names h.proper.names_ne h.proper.names, ImportGroup.segment, hclose,
    List.append_assoc _ inline]

/-- A group at the end of the text, without a line break. -/
theorem segmentsOf_last {g : ImportGroup} (h : g.Tidy) (hclose : '\n' ∉ g.close) (n : ℕ) :
    segmentsOf (n + 1) g.text = [g.segment] := by
  obtain ⟨gap, hgap, hnewline⟩ := h.gap
  have htext : g.text = g.namesText ++ ("FROM ".toList ++ (gap ++ g.module ++ g.close)) := by
    rw [ImportGroup.text, hgap]
    simp
  have hline : "FROM ".toList ++ (gap ++ g.module ++ g.close) =
      "FROM".toList ++ g.gap ++ g.module ++ g.close := by
    rw [hgap]
    simp
  have hmodule := (moduleText_line (h.line h.proper.close hclose) []).2
  rw [segmentsOf, htext, ImportGroup.namesText,
    find_names h.proper.names_ne h.proper.names h.noFrom h.proper.trail, hline]
  dsimp only
  rw [hmodule, getlines_names h.proper.names_ne h.proper.names]
  cases n <;> rfl

theorem segmentsOf_blank {s : Text} (h : IsBlank s) (n : ℕ) : segmentsOf n s = [] := by
  have hfind : find "FROM ".toList s = none := by
    have hblank := @find_blank 'F' "ROM ".toList s h (by decide) []
    rwa [List.append_nil] at hblank
  cases n with
  | zero => rfl
  | succ n => rw [segmentsOf, hfind]

/-- Groups that end their lines, but for the last one when nothing follows. -/
def InLines : List ImportGroup → Text → Prop
  | [], tail => IsBlank tail
  | g :: gs, tail =>
      g.Tidy ∧ (((∃ inline, g.close = inline ++ ['\n'] ∧ '\n' ∉ inline) ∧ InLines gs tail) ∨
        (gs = [] ∧ tail = [] ∧ '\n' ∉ g.close))

theorem segmentsOf_clauseText {gs : List ImportGroup} {tail : Text} (h : InLines gs tail) {n : ℕ}
    (hn : gs.length ≤ n) : segmentsOf n (clauseText gs tail) = gs.map ImportGroup.segment := by
  induction gs generalizing n with
  | nil => exact segmentsOf_blank h n
  | cons g gs ih =>
      obtain ⟨htidy, hrest⟩ := h
      obtain ⟨n, rfl⟩ := Nat.exists_eq_add_of_le' (show 1 ≤ n from (Nat.succ_pos _).trans_le hn)
      rcases hrest with ⟨⟨inline, hclose, hinline⟩, hrest⟩ | ⟨rfl, rfl, hclose⟩
      · have htext : clauseText (g :: gs) tail = g.text ++ clauseText gs tail := by
          rw [clauseText, clauseText, List.flatMap_cons, List.append_assoc]
        rw [htext, segmentsOf_group htidy hclose hinline, ih hrest (Nat.le_of_succ_le_succ hn),
          List.map_cons]
      · have htext : clauseText [g] [] = g.text := by
          rw [clauseText, List.flatMap_singleton, List.append_nil]
        rw [htext, segmentsOf_last htidy hclose, List.map_cons, List.map_nil]

theorem length_le_clauseText {gs : List ImportGroup} {tail : Text} :
    gs.length ≤ (clauseText gs tail).length := by
  rw [clauseText, List.length_append, List.length_flatMap]
  have hpos : ∀ g ∈ gs, 1 ≤ g.text.length := by
    intro g _
    rw [ImportGroup.text]
    simp
    omega
  have hsum := List.length_le_sum_of_one_le (gs.map fun g => g.text.length)
    (List.forall_mem_map.mpr hpos)
  rw [List.length_map] at hsum
  omega

theorem segments_clauseText {gs : List ImportGroup} {tail : Text} (h : InLines gs tail) :
    segments (clauseText gs tail) = gs.map ImportGroup.segment :=
  segmentsOf_clauseText h length_le_clauseText

/-! ### Filtering a segment -/

/-- The names of a group that are not filtered. -/
def ImportGroup.keep (c : Comments) (g : ImportGroup) : ImportGroup :=
  { g with names := g.names.filter fun n => c.keeps g.module n.name }

/-- The module is unknown, or has a key, and all names are found in it unless it is filtered. -/
def Comments.Knows (c : Comments) (g : ImportGroup) : Prop :=
  ∀ m, c.module g.module = some m → m.strName ≠ [] ∧
    (isFiltered c.settings m.comment = false →
      ∀ n ∈ g.names, (c.sequence (lookupName m.strName n.name)).isSome = true)

theorem ImportGroup.Tidy.strASN1ModuleName {g : ImportGroup} (h : g.Tidy) :
    g.segment.strASN1ModuleName = g.module := by
  obtain ⟨gap, hgap, -⟩ := h.gap
  have hblank := h.proper.gap.1
  rw [hgap] at hblank
  have hdrop : ("FROM".toList ++ g.gap ++ g.module ++ g.close).drop 5 =
      gap ++ g.module ++ g.close := by
    rw [hgap]
    simp
  rw [ImportSegment.strASN1ModuleName, segment, hdrop]
  exact trim_word (List.forall_mem_cons.mp hblank).2 h.proper.module h.proper.close

theorem lookupName_text {n : ImportedName} (h : n.Proper) (strModuleName : Text) :
    lookupName strModuleName n.text = lookupName strModuleName n.name := by
  have hname : trim n.name = n.name := by
    have htrim := @trim_word [] n.name [] (fun c hc => absurd hc List.not_mem_nil) h.name
      fun c hc => absurd hc List.not_mem_nil
    rwa [List.nil_append, List.append_nil] at htrim
  rw [lookupName, lookupName, ImportedName.text, trim_word h.lead h.name h.trail, hname]

theorem filterNames_text {c : Comments} {strModuleName : Text} {ns : List ImportedName}
    (hns : ∀ n ∈ ns, n.Proper)
    (hknown : ∀ n ∈ ns, (c.sequence (lookupName strModuleName n.name)).isSome = true) :
    filterNames c strModuleName (ns.map ImportedName.text) =
      some ((ns.filter fun n => (c.entry (lookupName strModuleName n.name)).all
        fun e => !isFiltered c.settings e.comment).map ImportedName.text) := by
  induction ns with
  | nil => rfl
  | cons n ns ih =>
      rw [List.forall_mem_cons] at hns hknown
      obtain ⟨e, he⟩ := Option.isSome_iff_exists.mp hknown.1
      have hentry : c.entry (lookupName strModuleName n.name) = some e := by
        rw [Comments.entry, he, Option.some_or]
      rw [List.map_cons, filterNames, lookupName_text hns.1, he]
      dsimp only
      rw [ih hns.2 hknown.2, List.filter_cons, hentry, Option.all_some]
      by_cases hfiltered : isFiltered c.settings e.comment = true
      · rw [if_pos hfiltered, hfiltered, if_neg (by decide)]
      · rw [if_neg hfiltered, Bool.eq_false_iff.mpr hfiltered, if_pos (by decide), Option.map_some,
          List.map_cons]

theorem filterSegment_segment {c : Comments} {g : ImportGroup} (h : g.Tidy) (hknows : c.Knows g) :
    filterSegment c g.segment = some (g.keep c).segment := by
  rw [filterSegment, h.strASN1ModuleName]
  cases hmodule : c.module g.module with
  | none =>
      have hkeep : g.keep c = g := by
        have hall : ∀ n ∈ g.names, c.keeps g.module n.name = true := by
          intro n _
          rw [Comments.keeps, hmodule, Option.all_none]
        rw [ImportGroup.keep, List.filter_eq_self.mpr hall]
      rw [hkeep]
  | some m =>
      obtain ⟨hname, hnames⟩ := hknows m hmodule
      dsimp only
      rw [if_neg hname]
      by_cases hfiltered : isFiltered c.settings m.comment = true
      · have hnone : g.names.filter (fun n => c.keeps g.module n.name) = [] := by
          rw [List.filter_eq_nil_iff]
          intro n _
          rw [Comments.keeps, hmodule, Option.all_some, hfiltered]
          exact Bool.false_ne_true
        rw [if_pos hfiltered, filterNames, Option.map_some, ImportGroup.keep, hnone]
        rfl
      · have hkeeps : ∀ n : ImportedName, c.keeps g.module n.name =
            (c.entry (lookupName m.strName n.name)).all
              fun e => !isFiltered c.settings e.comment := by
          intro n
          rw [Comments.keeps, hmodule, Option.all_some, Bool.eq_false_iff.mpr hfiltered]
          exact Bool.true_and _
        rw [if_neg hfiltered, ImportGroup.segment, filterNames_text h.proper.names
          (hnames (Bool.eq_false_iff.mpr hfiltered)), Option.map_some, ImportGroup.keep]
        simp only [hkeeps]
        rfl

theorem filterImports_clauseText {c : Comments} {gs : List ImportGroup} {tail : Text}
    (h : InLines gs tail) (htidy : ∀ g ∈ gs, g.Tidy) (hknows : ∀ g ∈ gs, c.Knows g) :
    filterImports c (clauseText gs tail) =
      some (gs.flatMap fun g => (g.keep c).segment.text) := by
  have hmap : (gs.map ImportGroup.segment).mapM (filterSegment c) =
      some (gs.map fun g => (g.keep c).segment) := by
    clear h
    induction gs with
    | nil => rfl
    | cons g gs ih =>
        rw [List.forall_mem_cons] at htidy hknows
        rw [List.map_cons, List.mapM_cons, filterSegment_segment htidy.1 hknows.1,
          ih htidy.2 hknows.2]
        rfl
  rw [filterImports, segments_clauseText h, hmap, Option.map_some, List.flatMap_map]

/-! ### Putting it together -/

theorem ltrimspace_append {s t : Text} (ht : ∀ c ∈ t.head?, c ≠ ' ') :
    ltrimspace (s ++ t) = ltrimspace s ++ t := by
  have hnone : t.dropWhile (fun c => c = ' ') = t := by
    cases t with
    | nil => rfl
    | cons c t => exact List.dropWhile_cons_of_neg (by simpa using ht c rfl)
  induction s with
  | nil => exact hnone
  | cons c s ih =>
      rw [ltrimspace, ltrimspace, List.cons_append, List.dropWhile_cons, List.dropWhile_cons]
      split_ifs
      · exact ih
      · rfl

theorem joined_eq {texts : List Text} (h : ∀ t ∈ texts, t ≠ []) :
    joined texts = [','].intercalate texts := by
  have hfold {texts : List Text} (acc : Text) (hacc : acc ≠ []) :
      texts.foldl (fun s name => if s = [] then name else s ++ [','] ++ name) acc =
        [','].intercalate (acc :: texts) := by
    induction texts generalizing acc with
    | nil => exact (List.intercalate_singleton).symm
    | cons t texts ih =>
        have hne : acc ++ [','] ++ t ≠ [] := by simp
        rw [List.foldl_cons, if_neg hacc, ih _ hne, List.intercalate_cons_cons]
        cases texts with
        | nil => simp [List.intercalate_singleton]
        | cons t' texts => simp [List.intercalate_cons_cons]
  cases texts with
  | nil => rfl
  | cons t texts =>
      rw [joined, List.foldl_cons, if_pos rfl]
      exact hfold t (h t List.mem_cons_self)

/-- `strFilteredImport` with its blank. -/
def spaced (s : Text) : Text := if s ≠ [] ∧ s.getLast? ≠ some ' ' then s ++ [' '] else s

/-- The names of a group as they are written. -/
structure Polished (ns ns' : List ImportedName) : Prop where
  proper : ∀ n ∈ ns', n.Proper
  trail : ∀ n ∈ ns'.getLast?, n.trail ≠ []
  name : ns'.map ImportedName.name = ns.map ImportedName.name

theorem Polished.ne_nil {ns ns' : List ImportedName} (h : Polished ns ns') (hne : ns ≠ []) :
    ns' ≠ [] := by
  intro hnil
  have hname := h.name
  rw [hnil] at hname
  exact hne (List.map_eq_nil_iff.mp hname.symm)

theorem ImportedName.Proper.trail_ne {n : ImportedName} (h : n.Proper)
    (hlast : n.text.getLast? = some ' ') : n.trail ≠ [] := by
  intro hnil
  rw [text, hnil, List.append_nil, List.getLast?_append_of_ne_nil _ h.name.1] at hlast
  have hspace := h.name.isSpace ' ' (List.mem_of_getLast? hlast)
  exact absurd hspace (by decide)

theorem intercalate_text (n n' : ImportedName) (ns : List ImportedName) :
    [','].intercalate ((n :: n' :: ns).map ImportedName.text) =
      n.text ++ [','] ++ [','].intercalate ((n' :: ns).map ImportedName.text) := by
  rw [List.map_cons, List.map_cons, List.intercalate_cons_cons]

/-- The last name gets a blank behind it if it has none. -/
theorem exists_spaced {ns : List ImportedName} (hne : ns ≠ []) (h : ∀ n ∈ ns, n.Proper) :
    ∃ ns', Polished ns ns' ∧
      ns'.head?.map ImportedName.lead = ns.head?.map ImportedName.lead ∧
      [','].intercalate (ns'.map ImportedName.text) =
        spaced ([','].intercalate (ns.map ImportedName.text)) := by
  induction ns with
  | nil => exact absurd rfl hne
  | cons n ns ih =>
      rw [List.forall_mem_cons] at h
      cases ns with
      | nil =>
          rw [List.map_cons, List.map_nil, List.intercalate_singleton, spaced]
          by_cases hlast : n.text.getLast? = some ' '
          · refine ⟨[n], ⟨List.forall_mem_singleton.mpr h.1, fun m hm => ?_, rfl⟩, rfl, ?_⟩
            · obtain rfl := Option.mem_some_iff.mp hm
              exact h.1.trail_ne hlast
            · rw [if_neg fun hno => hno.2 hlast, List.map_cons, List.map_nil,
                List.intercalate_singleton]
          · refine ⟨[⟨n.lead, n.name, n.trail ++ [' ']⟩],
              ⟨List.forall_mem_singleton.mpr ⟨h.1.lead, h.1.name, ?_⟩, fun m hm => ?_, rfl⟩, rfl,
              ?_⟩
            · refine isBlank_append.mpr ⟨h.1.trail, fun c hc => ?_⟩
              rw [List.mem_singleton.mp hc]
              rfl
            · obtain rfl := Option.mem_some_iff.mp hm
              exact List.append_ne_nil_of_right_ne_nil _ (List.cons_ne_nil _ _)
            · rw [if_pos ⟨h.1.text_ne, hlast⟩, List.map_cons, List.map_nil,
                List.intercalate_singleton, ImportedName.text, ImportedName.text]
              exact (List.append_assoc _ _ _).symm
      | cons n' ns =>
          obtain ⟨ns', hpolished, hlead, htext⟩ := ih (List.cons_ne_nil _ _) h.2
          have hne' := hpolished.ne_nil (List.cons_ne_nil _ _)
          refine ⟨n :: ns', ⟨List.forall_mem_cons.mpr ⟨h.1, hpolished.proper⟩, ?_, ?_⟩, rfl, ?_⟩
          · obtain ⟨m, ms, rfl⟩ := List.exists_cons_of_ne_nil hne'
            rw [List.getLast?_cons_cons]
            exact hpolished.trail
          · rw [List.map_cons, hpolished.name]
            rfl
          · obtain ⟨m, ms, rfl⟩ := List.exists_cons_of_ne_nil hne'
            have hS : [','].intercalate ((n' :: ns).map ImportedName.text) ≠ [] := by
              intro hnil
              have hsplit := getlines_names (List.cons_ne_nil n' ns) h.2
              rw [hnil] at hsplit
              exact absurd hsplit.symm (by simp [getlines])
            rw [intercalate_text, intercalate_text, htext]
            rw [spaced, spaced, List.getLast?_append_of_ne_nil _ hS]
            by_cases hlast : ([','].intercalate ((n' :: ns).map ImportedName.text)).getLast? =
                some ' '
            · rw [if_neg fun hno => hno.2 hlast, if_neg fun hno => hno.2 hlast]
            · rw [if_pos ⟨hS, hlast⟩, if_pos ⟨by simp, hlast⟩]
              exact (List.append_assoc _ _ _).symm

/-- The blanks in front of the first name are taken off. -/
theorem exists_polished {ns : List ImportedName} (hne : ns ≠ []) (h : ∀ n ∈ ns, n.Proper) :
    ∃ ns', Polished ns ns' ∧
      ns'.head?.map ImportedName.lead = ns.head?.map (fun n => ltrimspace n.lead) ∧
      [','].intercalate (ns'.map ImportedName.text) =
        ltrimspace (spaced ([','].intercalate (ns.map ImportedName.text))) := by
  obtain ⟨ns', hpolished, hlead, htext⟩ := exists_spaced hne h
  obtain ⟨m, ms, rfl⟩ := List.exists_cons_of_ne_nil (hpolished.ne_nil hne)
  have hm := (List.forall_mem_cons.mp hpolished.proper).1
  have hblank : IsBlank (ltrimspace m.lead) := fun c hc =>
    hm.lead c ((List.dropWhile_sublist _).subset hc)
  refine ⟨⟨ltrimspace m.lead, m.name, m.trail⟩ :: ms, ⟨?_, ?_, hpolished.name⟩, ?_, ?_⟩
  · exact List.forall_mem_cons.mpr ⟨⟨hblank, hm.name, hm.trail⟩,
      (List.forall_mem_cons.mp hpolished.proper).2⟩
  · intro n hn
    cases ms with
    | nil =>
        obtain rfl := Option.mem_some_iff.mp hn
        exact hpolished.trail m rfl
    | cons m' ms =>
        rw [List.getLast?_cons_cons] at hn
        exact hpolished.trail n (by rw [List.getLast?_cons_cons]; exact hn)
  · cases ns with
    | nil => exact absurd rfl hne
    | cons n ns => exact congrArg some (congrArg ltrimspace (Option.some.inj hlead))
  · rw [← htext]
    have hhead {X : Text} : ∀ c ∈ (m.name ++ X).head?, c ≠ ' ' := by
      intro c hc heq
      obtain ⟨d, w, hw⟩ := List.exists_cons_of_ne_nil hm.name.1
      rw [hw] at hc
      obtain rfl := Option.mem_some_iff.mp hc
      have hspace := hm.name.isSpace d (hw ▸ List.mem_cons_self)
      rw [heq] at hspace
      exact absurd hspace (by decide)
    have hsplit (lead : Text) : ∃ X, [','].intercalate
        (((⟨lead, m.name, m.trail⟩ : ImportedName) :: ms).map ImportedName.text) =
          lead ++ (m.name ++ X) ∧ ∀ lead', [','].intercalate
        (((⟨lead', m.name, m.trail⟩ : ImportedName) :: ms).map ImportedName.text) =
          lead' ++ (m.name ++ X) := by
      cases ms with
      | nil =>
          refine ⟨m.trail, ?_, fun lead' => ?_⟩ <;>
            rw [List.map_cons, List.map_nil, List.intercalate_singleton, ImportedName.text,
              List.append_assoc]
      | cons m' ms =>
          refine ⟨m.trail ++ [','] ++ [','].intercalate ((m' :: ms).map ImportedName.text), ?_,
            fun lead' => ?_⟩ <;>
            rw [intercalate_text, ImportedName.text, List.append_assoc, List.append_assoc,
              List.append_assoc, List.append_assoc]
    obtain ⟨X, hX, hX'⟩ := hsplit m.lead
    rw [hX' (ltrimspace m.lead)]
    exact (congrArg ltrimspace hX).trans (ltrimspace_append hhead) |>.symm

theorem segment_text {g : ImportGroup} (h : ∀ n ∈ g.names, n.Proper) :
    g.segment.text = if g.names = [] then [] else
      ltrimspace (spaced ([','].intercalate (g.names.map ImportedName.text))) ++
        g.segment.strModuleText := by
  have hjoined : joined (g.names.map ImportedName.text) =
      [','].intercalate (g.names.map ImportedName.text) :=
    joined_eq (List.forall_mem_map.mpr fun n hn => (h n hn).text_ne)
  by_cases hnone : g.names = []
  · rw [if_pos hnone, ImportSegment.text, if_pos]
    rw [ImportGroup.segment, hnone, List.map_nil]
  · have hsome : g.segment.strImports ≠ [] := fun hnil => hnone (List.map_eq_nil_iff.mp hnil)
    rw [if_neg hnone, ImportSegment.text, if_neg hsome]
    show ltrimspace (spaced (joined (g.names.map ImportedName.text))) ++ _ = _
    rw [hjoined]

/-- The names that remain. -/
def remaining (c : Comments) (gs : List ImportGroup) : List ImportedName :=
  gs.flatMap fun g => (g.keep c).names

/-- The groups that are written: they say what is kept. -/
structure Written (c : Comments) (gs ks : List ImportGroup) : Prop where
  text : (gs.flatMap fun g => (g.keep c).segment.text) = ks.flatMap ImportGroup.text
  proper : ∀ k ∈ ks, k.Proper
  close : ∀ k ∈ ks, ∃ g ∈ gs, k.close = g.close
  content : ks.map ImportGroup.content = c.kept (gs.map ImportGroup.content)
  lead : ∀ k ∈ ks.head?, k.names.head?.map ImportedName.lead =
    (remaining c gs).head?.map fun n => ltrimspace n.lead

theorem kept_cons (c : Comments) (g : ImportGroup) (contents : List (List Text × Text)) :
    c.kept (g.content :: contents) =
      if (g.keep c).names = [] then c.kept contents else (g.keep c).content :: c.kept contents := by
  have hnames : (g.names.map ImportedName.name).filter (c.keeps g.module) =
      (g.keep c).names.map ImportedName.name := List.filter_map
  rw [Comments.kept, List.map_cons, List.filter_cons]
  show (if decide ((g.names.map ImportedName.name).filter (c.keeps g.module) ≠ []) = true then
    (_, g.module) :: _ else _) = _
  rw [hnames]
  by_cases hnone : (g.keep c).names = []
  · rw [if_pos hnone, if_neg (by rw [hnone]; simp)]
    rfl
  · rw [if_neg hnone, if_pos (by simpa using hnone)]
    show ((g.names.map ImportedName.name).filter (c.keeps g.module), g.module) ::
      c.kept contents = _
    rw [hnames]
    rfl

theorem exists_written (c : Comments) {gs : List ImportGroup} (h : ∀ g ∈ gs, g.Proper) :
    ∃ ks, Written c gs ks := by
  induction gs with
  | nil => exact ⟨[], rfl, fun k hk => absurd hk List.not_mem_nil,
      fun k hk => absurd hk List.not_mem_nil, rfl, fun k hk => by cases hk⟩
  | cons g gs ih =>
      rw [List.forall_mem_cons] at h
      obtain ⟨ks, hks⟩ := ih h.2
      have hproper : ∀ n ∈ (g.keep c).names, n.Proper := fun n hn =>
        h.1.names n (List.mem_of_mem_filter hn)
      have htext := segment_text hproper
      have hclose : ∀ k ∈ ks, ∃ g' ∈ g :: gs, k.close = g'.close := fun k hk => by
        obtain ⟨g', hg', heq⟩ := hks.close k hk
        exact ⟨g', List.mem_cons_of_mem _ hg', heq⟩
      by_cases hnone : (g.keep c).names = []
      · refine ⟨ks, ?_, hks.proper, hclose, ?_, ?_⟩
        · rw [List.flatMap_cons, htext, if_pos hnone, hks.text, List.nil_append]
        · rw [hks.content, List.map_cons, kept_cons, if_pos hnone]
        · rw [remaining, List.flatMap_cons, hnone, List.nil_append]
          exact hks.lead
      · obtain ⟨ns, hpolished, hlead, hnames⟩ := exists_polished hnone hproper
        refine ⟨{ g with names := ns } :: ks, ?_, ?_, ?_, ?_, ?_⟩
        · rw [List.flatMap_cons, List.flatMap_cons, htext, if_neg hnone, ← hnames, hks.text]
          simp [ImportGroup.text, ImportGroup.namesText, ImportGroup.segment, ImportGroup.keep]
        · exact List.forall_mem_cons.mpr ⟨⟨hpolished.ne_nil hnone, hpolished.proper,
            hpolished.trail, h.1.gap, h.1.module, h.1.close⟩, hks.proper⟩
        · exact List.forall_mem_cons.mpr ⟨⟨g, List.mem_cons_self, rfl⟩, hclose⟩
        · rw [List.map_cons, hks.content, List.map_cons, kept_cons, if_neg hnone]
          exact congrArg (· :: _) (congrArg (·, g.module) hpolished.name)
        · intro k hk
          obtain rfl := Option.mem_some_iff.mp hk
          obtain ⟨n, rest, hfirst⟩ := List.exists_cons_of_ne_nil hnone
          rw [remaining, List.flatMap_cons, hfirst, List.cons_append, List.head?_cons]
          rw [hfirst] at hlead
          exact hlead

/-! ### The text of a clause determines what it says -/

/-- Words and commas, without the white space. -/
def tokens : Text → List Text
  | [] => []
  | c :: s =>
      if isSpace c then tokens s
      else if c = ',' then [','] :: tokens s
      else if s.head?.any (fun d : Char => d.isAlphanum || d = '-') then
        (tokens s).modifyHead (c :: ·)
      else [c] :: tokens s

theorem tokens_blank {b : Text} (hb : IsBlank b) (s : Text) : tokens (b ++ s) = tokens s := by
  induction b with
  | nil => rfl
  | cons c b ih =>
      have hb' := List.forall_mem_cons.mp hb
      rw [List.cons_append, tokens, if_pos hb'.1, ih hb'.2]

theorem tokens_word {w s : Text} (hw : w ≠ []) (hall : ∀ c ∈ w, (c.isAlphanum || c = '-') = true)
    (hs : ∀ d ∈ s.head?, (d.isAlphanum || d = '-') = false) :
    tokens (w ++ s) = w :: tokens s := by
  induction w with
  | nil => exact absurd rfl hw
  | cons c w ih =>
      rw [List.forall_mem_cons] at hall
      have hspace : isSpace c = false := by
        by_contra htrue
        have hin : c ∈ [' ', '\n', '\r', '\t', '\x0c', '\x0b'] :=
          of_decide_eq_true ((Bool.not_eq_false _).mp htrue)
        exact absurd hall.1 (by rw [isSpace_of_isAlphanum c hin]; exact Bool.false_ne_true)
      have hcomma : c ≠ ',' := by
        rintro rfl
        exact absurd hall.1 (by decide)
      rw [List.cons_append, tokens, hspace, if_neg Bool.false_ne_true, if_neg hcomma]
      cases w with
      | nil =>
          have hend : ([] ++ s).head?.any (fun d : Char => d.isAlphanum || d = '-') = false := by
            rw [List.nil_append]
            cases hhead : s.head? with
            | none => rfl
            | some d => exact hs d hhead
          rw [hend, if_neg Bool.false_ne_true, List.nil_append]
      | cons d w =>
          have hnext : (d :: w ++ s).head?.any (fun d : Char => d.isAlphanum || d = '-') = true :=
            hall.2 d List.mem_cons_self
          rw [if_pos hnext, ih (List.cons_ne_nil _ _) hall.2, List.modifyHead_cons]

theorem notWord_of_isSpace {d : Char} (h : isSpace d = true) : (d.isAlphanum || d = '-') = false :=
  isSpace_of_isAlphanum d (of_decide_eq_true h)

/-- White space, or a text that begins with none of the characters of a word. -/
theorem head_notWord {b s : Text} (hb : IsBlank b)
    (hs : b = [] → ∀ d ∈ s.head?, (d.isAlphanum || d = '-') = false) :
    ∀ d ∈ (b ++ s).head?, (d.isAlphanum || d = '-') = false := by
  intro d hd
  cases b with
  | nil => exact hs rfl d hd
  | cons c b =>
      obtain rfl := Option.mem_some_iff.mp hd
      exact notWord_of_isSpace (hb _ List.mem_cons_self)

theorem tokens_text {n : ImportedName} (h : n.Proper) {s : Text}
    (hs : n.trail = [] → ∀ d ∈ s.head?, (d.isAlphanum || d = '-') = false) :
    tokens (n.text ++ s) = n.name :: tokens s := by
  rw [ImportedName.text, List.append_assoc, List.append_assoc, tokens_blank h.lead,
    tokens_word h.name.1 h.name.2.2 (head_notWord h.trail hs), tokens_blank h.trail]

theorem tokens_names {ns : List ImportedName} (h : ∀ n ∈ ns, n.Proper)
    (htrail : ∀ n ∈ ns.getLast?, n.trail ≠ []) (s : Text) :
    tokens ([','].intercalate (ns.map ImportedName.text) ++ s) =
      (ns.map ImportedName.name).intersperse [','] ++ tokens s := by
  induction ns with
  | nil => rfl
  | cons n ns ih =>
      rw [List.forall_mem_cons] at h
      cases ns with
      | nil =>
          rw [List.map_cons, List.map_nil, List.intercalate_singleton,
            tokens_text h.1 fun hnil => absurd hnil (htrail n rfl)]
          rfl
      | cons n' ns =>
          rw [List.getLast?_cons_cons] at htrail
          rw [intercalate_text, List.append_assoc, List.append_assoc, tokens_text h.1]
          · rw [List.singleton_append, tokens, if_neg (by decide), if_pos rfl, ih h.2 htrail]
            rfl
          · intro _ d hd
            obtain rfl := Option.mem_some_iff.mp hd
            rfl

/-- The tokens of a group. -/
def groupTokens (content : List Text × Text) : List Text :=
  content.1.intersperse [','] ++ ["FROM".toList, content.2]

theorem tokens_group {g : ImportGroup} (h : g.Proper) {s : Text}
    (hs : g.close = [] → ∀ d ∈ s.head?, (d.isAlphanum || d = '-') = false) :
    tokens (g.text ++ s) = groupTokens g.content ++ tokens s := by
  rw [ImportGroup.text, ImportGroup.namesText]
  simp only [List.append_assoc]
  rw [tokens_names h.names h.trail, tokens_word (by decide) isAlphanum_of_mem_from
      (head_notWord h.gap.1 fun hnil => absurd hnil h.gap.2), tokens_blank h.gap.1,
    tokens_word h.module.1 h.module.2.2 (head_notWord h.close hs), tokens_blank h.close,
    groupTokens, List.append_assoc]
  rfl

theorem tokens_clauseText {gs : List ImportGroup} {tail : Text} (h : ∀ g ∈ gs, g.Proper)
    (htail : IsBlank tail) (hclose : ∀ g ∈ gs.dropLast, g.close ≠ []) :
    tokens (clauseText gs tail) = (gs.map ImportGroup.content).flatMap groupTokens := by
  induction gs with
  | nil =>
      rw [clauseText, List.flatMap_nil, List.nil_append, ← List.append_nil tail,
        tokens_blank htail]
      rfl
  | cons g gs ih =>
      rw [List.forall_mem_cons] at h
      have htext : clauseText (g :: gs) tail = g.text ++ clauseText gs tail := by
        rw [clauseText, clauseText, List.flatMap_cons, List.append_assoc]
      have hrest : ∀ g' ∈ gs.dropLast, g'.close ≠ [] := by
        intro g' hg'
        cases gs with
        | nil => exact absurd hg' List.not_mem_nil
        | cons g₁ gs => exact hclose g' (List.mem_cons_of_mem _ hg')
      rw [htext, tokens_group h.1, ih h.2 hrest, List.map_cons, List.flatMap_cons]
      intro hnil
      cases gs with
      | nil =>
          have hblank := head_notWord htail (s := []) fun _ d hd => by cases hd
          rwa [List.append_nil] at hblank
      | cons g₁ gs => exact absurd hnil (hclose g List.mem_cons_self)

theorem filter_intersperse {names : List Text} (h : ∀ name ∈ names, name ≠ [',']) :
    (names.intersperse [',']).filter (fun t => t ≠ [',']) = names := by
  induction names with
  | nil => rfl
  | cons name names ih =>
      rw [List.forall_mem_cons] at h
      have hname : decide (name ≠ [',']) = true := decide_eq_true h.1
      cases names with
      | nil => rw [List.intersperse_singleton, List.filter_cons, if_pos hname, List.filter_nil]
      | cons name' names =>
          rw [List.intersperse_cons_cons, List.filter_cons, if_pos hname, List.filter_cons,
            if_neg (by decide), ih h.2]

/-- Names that are words. -/
def ProperContent (content : List Text × Text) : Prop := ∀ name ∈ content.1, IsWord name

theorem mem_intersperse {names : List Text} {t : Text} (h : t ∈ names.intersperse [',']) :
    t ∈ names ∨ t = [','] := by
  induction names with
  | nil => exact absurd h List.not_mem_nil
  | cons name names ih =>
      cases names with
      | nil => exact .inl h
      | cons name' names =>
          rw [List.intersperse_cons_cons] at h
          rcases List.mem_cons.mp h with rfl | h
          · exact .inl List.mem_cons_self
          rcases List.mem_cons.mp h with rfl | h
          · exact .inr rfl
          · exact (ih h).imp_left (List.mem_cons_of_mem _)

theorem groupTokens_append {content : List Text × Text} (h : ProperContent content)
    (s : List Text) :
    ((groupTokens content ++ s).takeWhile fun t => t ≠ "FROM".toList) =
        content.1.intersperse [','] ∧
      ((groupTokens content ++ s).dropWhile fun t => t ≠ "FROM".toList) =
        "FROM".toList :: content.2 :: s := by
  have hall : ∀ t ∈ content.1.intersperse [','], decide (t ≠ "FROM".toList) = true := by
    intro t ht
    rcases mem_intersperse ht with hname | rfl
    · exact decide_eq_true (h t hname).2.1
    · decide
  rw [groupTokens, List.append_assoc, List.takeWhile_append_of_pos hall,
    List.dropWhile_append_of_pos hall]
  exact ⟨List.append_nil _, rfl⟩

theorem groupTokens_injective {xs ys : List (List Text × Text)} (hxs : ∀ x ∈ xs, ProperContent x)
    (hys : ∀ y ∈ ys, ProperContent y) (h : xs.flatMap groupTokens = ys.flatMap groupTokens) :
    xs = ys := by
  have hne (z : List Text × Text) (zs : List Text) : groupTokens z ++ zs ≠ [] := by
    simp [groupTokens]
  have hcomma {z : List Text × Text} (hz : ProperContent z) : ∀ name ∈ z.1, name ≠ [','] := by
    rintro name hname rfl
    exact absurd ((hz _ hname).2.2 ',' (List.mem_singleton_self _)) (by decide)
  induction xs generalizing ys with
  | nil =>
      cases ys with
      | nil => rfl
      | cons y ys => exact absurd h.symm (hne _ _)
  | cons x xs ih =>
      cases ys with
      | nil => exact absurd h (hne _ _)
      | cons y ys =>
          rw [List.forall_mem_cons] at hxs hys
          rw [List.flatMap_cons, List.flatMap_cons] at h
          obtain ⟨hx, hx'⟩ := groupTokens_append hxs.1 (xs.flatMap groupTokens)
          obtain ⟨hy, hy'⟩ := groupTokens_append hys.1 (ys.flatMap groupTokens)
          rw [h] at hx hx'
          have hnames := congrArg (List.filter fun t => t ≠ [',']) (hx.symm.trans hy)
          rw [filter_intersperse (hcomma hxs.1), filter_intersperse (hcomma hys.1)] at hnames
          obtain ⟨-, hmodule, hrest⟩ := (by simpa using hx'.symm.trans hy' :
            True ∧ x.2 = y.2 ∧ xs.flatMap groupTokens = ys.flatMap groupTokens)
          rw [ih hxs.2 hys.2 hrest, Prod.ext hnames hmodule]

theorem IsClause.unique {clause : Text} {contents contents' : List (List Text × Text)}
    (h : IsClause clause contents) (h' : IsClause clause contents') : contents = contents' := by
  obtain ⟨gs, tail, hwf, rfl, rfl⟩ := h
  obtain ⟨gs', tail', hwf', htext, rfl⟩ := h'
  have hwords {gs : List ImportGroup} (hgs : ∀ g ∈ gs, g.Proper) :
      ∀ x ∈ gs.map ImportGroup.content, ProperContent x := by
    refine List.forall_mem_map.mpr fun g hg => ?_
    exact List.forall_mem_map.mpr fun n hn => ((hgs g hg).names n hn).name
  refine groupTokens_injective (hwords hwf.groups) (hwords hwf'.groups) ?_
  rw [← tokens_clauseText hwf.groups hwf.tail hwf.close, htext,
    tokens_clauseText hwf'.groups hwf'.tail hwf'.close]

end Esnacc.Compiler.FilteredImports
