import Mathlib
import Esnacc.Compiler.CommentMaps

/-!
Tags reach the element that they precede. What an element should get is read off the layout of its
module: the comment lines behind the previous element, and the comment in its own line.
-/

namespace Esnacc.Compiler.CommentParser.CommentMaps

variable {S : Type} (r : Reader S)

/-! ### What an element should get -/

/-- The comments of a member: those that are left over, the lines in front, and its own line. -/
def ownComments (pending lead : List Text) (line : Text) : List Text :=
  collect (collectAll pending lead) (szComment line)

/-- The comments of a definition; outside of types `@clear` forgets what is in front. -/
def definitionComments (pending lead : List Text) (line : Text) : List Text :=
  collect (noteAll pending lead) (szComment line)

/-- A type with its tags, and those of its members in order. -/
structure TypeTags (S : Type) where
  name : Text
  data : TagData S
  members : List (Text × TagData S)
  deriving DecidableEq

def TypeTags.comment (t : TypeTags S) : SequenceComment S := ⟨t.data, t.members.reverse⟩

/-- A member in the line with the closing bracket. -/
def closeEntries (pending tail : List Text) (close : Text) : List (Text × TagData S) :=
  if startsLower (token close 0) then
    [(strMember close, convertMemberCommentList r (ownComments pending tail close))]
  else []

/-- The comments behind the last member of a type. -/
def closeLeft (pending tail : List Text) (close : Text) : List Text :=
  if startsLower (token close 0) then [] else collectAll pending tail

end Esnacc.Compiler.CommentParser.CommentMaps

namespace Esnacc.Compiler.CommentParser.Members

open CommentMaps

variable {S : Type} (r : Reader S)

/-- The comments behind the last member. -/
def left : Members → List Text → List Text
  | .nil, pending => pending
  | .plain _ _ rest, _ | .sequenceOf _ _ rest, _ => rest.left []
  | .inline _ _ opening members tail close rest, _ =>
      rest.left (closeLeft (members.left (collectAll [] opening)) tail close)

/-- The members with their tags. -/
def entries : Members → List Text → List (Text × TagData S)
  | .nil, _ => []
  | .plain lead line rest, pending | .sequenceOf lead line rest, pending =>
      (strMember line, CommentMaps.convertMemberCommentList r (ownComments pending lead line)) ::
        rest.entries []
  | .inline lead line opening members tail close rest, pending =>
      (strMember line, CommentMaps.convertMemberCommentList r (ownComments pending lead line)) ::
        rest.entries (closeLeft (members.left (collectAll [] opening)) tail close)

/-- The inline types with their tags. -/
def types (modComment : TagData S) : Members → Text → List Text → List (TypeTags S)
  | .nil, _, _ => []
  | .plain _ _ rest, name, _ => rest.types modComment name []
  | .sequenceOf lead line rest, name, pending =>
      ⟨name ++ "List".toList,
        CommentMaps.convertCommentList r (ownComments pending lead line) (.none r), []⟩ ::
        rest.types modComment name []
  | .inline lead line opening members tail close rest, name, pending =>
      members.types modComment (inlineName name line) (collectAll [] opening) ++
        ⟨inlineName name line,
          CommentMaps.convertCommentList r (ownComments pending lead line) (.inherit r modComment),
          members.entries r (collectAll [] opening) ++
            closeEntries r (members.left (collectAll [] opening)) tail close⟩ ::
        rest.types modComment name (closeLeft (members.left (collectAll [] opening)) tail close)

end Esnacc.Compiler.CommentParser.Members

namespace Esnacc.Compiler.CommentParser.Item

open CommentMaps

variable {S : Type} (r : Reader S)

/-- The comments behind an item. Those around IMPORTS are in front of the next definition. -/
def left (item : Item) (pending : List Text) : List Text :=
  match item.body with
  | .imports => noteAll pending item.lead
  | .importList mid _ => noteAll pending (item.lead ++ mid)
  | .oneLine | .value | .shortOperation | .bitString => []
  | .operation mid _ => collectAll [] mid
  | .type opening members tail close =>
      closeLeft (members.left (collectAll [] opening)) tail close

/-- The types of an item. -/
def types (modComment : TagData S) (item : Item) (pending : List Text) : List (TypeTags S) :=
  let comments := definitionComments pending item.lead item.line
  match item.body with
  | .oneLine =>
      [⟨token item.line 0, CommentMaps.convertCommentList r comments (.none r), []⟩]
  | .type opening members tail close =>
      members.types r modComment (token item.line 0) (collectAll [] opening) ++
        [⟨token item.line 0,
          CommentMaps.convertCommentList r comments (.inherit r modComment),
          members.entries r (collectAll [] opening) ++
            closeEntries r (members.left (collectAll [] opening)) tail close⟩]
  | .bitString =>
      [⟨token item.line 0, CommentMaps.convertCommentList r comments (.inherit r modComment), []⟩]
  | .imports | .importList _ _ | .value | .operation _ _ | .shortOperation => []

/-- The operation of an item. -/
def operations (modComment : TagData S) (item : Item) (pending : List Text) :
    List (Text × TagData S) :=
  match item.body with
  | .operation _ _ | .shortOperation =>
      [(token item.line 0, CommentMaps.convertCommentList r
        (definitionComments pending item.lead item.line) (.inherit r modComment))]
  | .imports | .importList _ _ | .oneLine | .value | .type _ _ _ _ | .bitString => []

end Esnacc.Compiler.CommentParser.Item

namespace Esnacc.Compiler.CommentParser.CommentMaps

variable {S : Type} (r : Reader S) (szModuleName : Text)

/-- What is read off the items of a module, one after the other. -/
def overItems {β : Type} (f : Item → List Text → List β) : List Item → List Text → List β
  | [], _ => []
  | item :: items, pending => f item pending ++ overItems f items (item.left pending)

def moduleComment (m : Module) : TagData S :=
  convertCommentList r (noteAll [] (m.lead ++ m.head)) (.none r)

def moduleTypes (m : Module) : List (TypeTags S) :=
  overItems (Item.types r (moduleComment r m)) m.items []

def moduleOperations (m : Module) : List (Text × TagData S) :=
  overItems (Item.operations r (moduleComment r m)) m.items []

/-- Each type, member and operation has an entry with its tags, and the module, too. -/
structure TagsReach (m : Module) (g : Comments S) : Prop where
  types : ∀ t ∈ moduleTypes r m, ∃ c, g.mapSequences.lookup (strKey szModuleName t.name) = some c ∧
    c.data = t.data ∧ ∀ d ∈ t.members, c.mapMembers.lookup d.1 = some d.2
  operations : ∀ o ∈ moduleOperations r m,
    g.mapOperations.lookup (strKey szModuleName o.1) = some o.2
  module : g.mapModules.lookup (moduleKey szModuleName) = some (moduleComment r m)

/-! ### The condition -/

/-- The comment has none of the tags. -/
def isTagged (comment : Text) : Bool :=
  "@private".toList.isPrefixOf (trim comment) || "@deprecated".toList.isPrefixOf (trim comment) ||
    "@added".toList.isPrefixOf (trim comment) || "@linked".toList.isPrefixOf (trim comment) ||
    "->".toList.isPrefixOf (trim comment)

/-- If the line is a comment, it has no tag. -/
def Untagged (raw : Text) : Prop := szLine raw = [] → isTagged (szComment raw) = false

instance (raw : Text) : Decidable (Untagged raw) := inferInstanceAs (Decidable (_ → _))

/-- Where a SEQUENCE OF member stands in front, there is a line that it can take. -/
def Takes (taking : Bool) (lead : List Text) : Prop :=
  taking = true → ∃ first ∈ lead.head?, Untagged first

instance (taking : Bool) (lead : List Text) : Decidable (Takes taking lead) :=
  inferInstanceAs (Decidable (_ → _))

/-- Nothing with a tag stands between the type and its bracket, or behind its last member. -/
structure BodyHandled (opening tail : List Text) (close : Text) (taking : Bool) : Prop where
  opening : ∀ raw ∈ opening, Untagged raw
  takes : Takes taking tail
  tail : startsLower (token close 0) = false → ∀ raw ∈ tail, Untagged raw

instance (opening tail : List Text) (close : Text) (taking : Bool) :
    Decidable (BodyHandled opening tail close taking) :=
  decidable_of_iff ((∀ raw ∈ opening, Untagged raw) ∧ Takes taking tail ∧
      (startsLower (token close 0) = false → ∀ raw ∈ tail, Untagged raw))
    ⟨fun h => ⟨h.1, h.2.1, h.2.2⟩, fun h => ⟨h.1, h.2, h.3⟩⟩

end Esnacc.Compiler.CommentParser.CommentMaps

namespace Esnacc.Compiler.CommentParser.Members

open CommentMaps

/-- The last member is a SEQUENCE OF. -/
def ends : Members → Bool → Bool
  | .nil, taking => taking
  | .plain _ _ rest, _ | .inline _ _ _ _ _ _ rest, _ => rest.ends false
  | .sequenceOf _ _ rest, _ => rest.ends true

/-- The members meet none of the cases that are handled wrongly. -/
def TagsHandled : Members → (taking : Bool) → Prop
  | .nil, _ => True
  | .plain lead line rest, taking =>
      Takes taking lead ∧ '\x7d' ∉ szLine line ∧ rest.TagsHandled false
  | .sequenceOf lead _ rest, taking => Takes taking lead ∧ rest.TagsHandled true
  | .inline lead _ opening members tail close rest, taking =>
      Takes taking lead ∧ members.TagsHandled false ∧
        BodyHandled opening tail close (members.ends false) ∧ rest.TagsHandled false

instance decidableTagsHandled : (members : Members) → (taking : Bool) →
    Decidable (members.TagsHandled taking)
  | .nil, _ => isTrue trivial
  | .plain _ _ rest, _ =>
      have := decidableTagsHandled rest false
      inferInstanceAs (Decidable (_ ∧ _ ∧ _))
  | .sequenceOf _ _ rest, _ =>
      have := decidableTagsHandled rest true
      inferInstanceAs (Decidable (_ ∧ _))
  | .inline _ _ _ members _ _ rest, _ =>
      have := decidableTagsHandled members false
      have := decidableTagsHandled rest false
      inferInstanceAs (Decidable (_ ∧ _ ∧ _ ∧ _))

end Esnacc.Compiler.CommentParser.Members

namespace Esnacc.Compiler.CommentParser.CommentMaps

/-- The item meets none of the cases that are handled wrongly. -/
def ItemHandled (item : Item) : Prop :=
  match item.body with
  | .imports | .importList _ _ | .value => True
  | .oneLine => isTagged (szComment item.line) = false
  | .operation mid _ =>
      isTagged (szComment item.line) = false ∧ ∀ raw ∈ mid, Untagged raw
  | .shortOperation | .bitString => False
  | .type opening members tail close =>
      isTagged (szComment item.line) = false ∧
        (isBitString (token item.line 2) (token item.line 3) = true → opening ≠ []) ∧
        members.TagsHandled false ∧ BodyHandled opening tail close (members.ends false)

instance : (item : Item) → Decidable (ItemHandled item)
  | ⟨_, _, .imports⟩ | ⟨_, _, .importList _ _⟩ | ⟨_, _, .value⟩ => isTrue trivial
  | ⟨_, _, .oneLine⟩ => inferInstanceAs (Decidable (_ = _))
  | ⟨_, _, .operation _ _⟩ => inferInstanceAs (Decidable (_ ∧ _))
  | ⟨_, _, .shortOperation⟩ | ⟨_, _, .bitString⟩ => isFalse fun h => h
  | ⟨_, _, .type _ _ _ _⟩ => inferInstanceAs (Decidable (_ ∧ (_ → _) ∧ _ ∧ _))

/-- No two entries have the same key. -/
structure Distinct {S : Type} (ts : List (TypeTags S)) (os : List (Text × TagData S)) : Prop where
  types : (ts.map TypeTags.name).Nodup
  members : ∀ t ∈ ts, (t.members.map Prod.fst).Nodup
  operations : (os.map Prod.fst).Nodup

instance {S : Type} (ts : List (TypeTags S)) (os : List (Text × TagData S)) :
    Decidable (Distinct ts os) :=
  decidable_of_iff ((ts.map TypeTags.name).Nodup ∧ (∀ t ∈ ts, (t.members.map Prod.fst).Nodup) ∧
      (os.map Prod.fst).Nodup)
    ⟨fun h => ⟨h.1, h.2.1, h.2.2⟩, fun h => ⟨h.1, h.2, h.3⟩⟩

/-- The module meets none of the cases that are handled wrongly. -/
structure ModuleHandled {S : Type} (r : Reader S) (m : Module) : Prop where
  items : ∀ item ∈ m.items, ItemHandled item
  distinct : Distinct (moduleTypes r m) (moduleOperations r m)

/-! ### Comments without tags -/

variable {S : Type} (r : Reader S) (szModuleName : Text)

theorem applyTag_untagged (isMember : Bool) (state : TagData S × Bool) {comment : Text}
    (h : isTagged comment = false) : applyTag r isMember state comment = state := by
  simp only [isTagged, Bool.or_eq_false_iff] at h
  obtain ⟨⟨⟨⟨hprivate, hdeprecated⟩, hadded⟩, hlinked⟩, harrow⟩ := h
  rw [applyTag]
  simp only [hprivate, hdeprecated, hadded, hlinked, harrow, Bool.and_false, Bool.false_eq_true,
    if_false]

theorem foldl_applyTag (isMember : Bool) (state : TagData S × Bool) (comments : List Text) :
    comments.foldl (applyTag r isMember) state =
      (comments.filter isTagged).foldl (applyTag r isMember) state := by
  induction comments generalizing state with
  | nil => rfl
  | cons comment comments ih =>
      rw [List.foldl_cons, List.filter_cons]
      by_cases htagged : isTagged comment = true
      · rw [if_pos htagged, List.foldl_cons, ih]
      · rw [if_neg htagged, applyTag_untagged r isMember state (Bool.eq_false_iff.mpr htagged), ih]

/-- The same tags in the same order. -/
def Same (cs cs' : List Text) : Prop := cs.filter isTagged = cs'.filter isTagged

theorem Same.refl (cs : List Text) : Same cs cs := rfl

theorem Same.trans {cs cs' cs'' : List Text} (h : Same cs cs') (h' : Same cs' cs'') :
    Same cs cs'' := Eq.trans h h'

theorem Same.symm {cs cs' : List Text} (h : Same cs cs') : Same cs' cs := Eq.symm h

theorem Same.convert {cs cs' : List Text} (h : Same cs cs') (data : TagData S) :
    convertCommentList r cs data = convertCommentList r cs' data := by
  rw [convertCommentList, convertCommentList, foldl_applyTag, h, ← foldl_applyTag]

theorem Same.convertMember {cs cs' : List Text} (h : Same cs cs') :
    convertMemberCommentList r cs = convertMemberCommentList r cs' := by
  rw [convertMemberCommentList, convertMemberCommentList, foldl_applyTag, h, ← foldl_applyTag]

theorem Same.collect {cs cs' : List Text} (h : Same cs cs') (comment : Text) :
    Same (collect cs comment) (collect cs' comment) := by
  rw [CommentParser.collect, CommentParser.collect]
  split_ifs
  · exact h
  · rw [Same, List.filter_append, List.filter_append, h]

theorem same_collect {comment : Text} (h : isTagged comment = false) (cs : List Text) :
    Same (collect cs comment) cs := by
  rw [CommentParser.collect]
  split_ifs
  · exact .refl cs
  · rw [Same, List.filter_append, List.filter_cons_of_neg (by rw [h]; exact Bool.false_ne_true),
      List.filter_nil, List.append_nil]

theorem Same.note {cs cs' : List Text} (h : Same cs cs') (comment : Text) :
    Same (note cs comment) (note cs' comment) := by
  rw [CommentParser.note, CommentParser.note]
  split_ifs
  · exact .refl []
  · exact h.collect comment

theorem Same.foldl {f : List Text → Text → List Text}
    (hf : ∀ cs cs' raw, Same cs cs' → Same (f cs raw) (f cs' raw)) {cs cs' : List Text}
    (h : Same cs cs') (lines : List Text) : Same (lines.foldl f cs) (lines.foldl f cs') := by
  induction lines generalizing cs cs' with
  | nil => exact h
  | cons raw lines ih => exact ih (hf cs cs' raw h)

theorem Same.collectAll {cs cs' : List Text} (h : Same cs cs') (lead : List Text) :
    Same (collectAll cs lead) (collectAll cs' lead) :=
  Same.foldl (fun _ _ raw hsame => hsame.collect (szComment raw)) h _

theorem Same.noteAll {cs cs' : List Text} (h : Same cs cs') (lead : List Text) :
    Same (noteAll cs lead) (noteAll cs' lead) :=
  Same.foldl (fun _ _ raw hsame => hsame.note (szComment raw)) h _

theorem collectAll_cons (cs : List Text) (raw : Text) (lead : List Text) :
    collectAll cs (raw :: lead) =
      collectAll (if szLine raw = [] then collect cs (szComment raw) else cs) lead := by
  rw [CommentParser.collectAll, CommentParser.collectAll, List.filter_cons]
  split_ifs with h h' h'
  · rfl
  · exact absurd (of_decide_eq_true h) h'
  · exact absurd (decide_eq_true h') h
  · rfl

theorem same_collectAll {lead : List Text} (h : ∀ raw ∈ lead, Untagged raw) (cs : List Text) :
    Same (collectAll cs lead) cs := by
  induction lead generalizing cs with
  | nil => exact .refl cs
  | cons raw lead ih =>
      rw [List.forall_mem_cons] at h
      rw [collectAll_cons]
      refine (ih h.2 _).trans ?_
      split_ifs with hempty
      · exact same_collect (h.1 hempty) cs
      · exact .refl cs

end Esnacc.Compiler.CommentParser.CommentMaps
