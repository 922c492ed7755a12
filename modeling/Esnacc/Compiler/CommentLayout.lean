import Esnacc.Compiler.CommentParser

/-!
The layout of source files: one member or definition to a line, with lines in front that belong to
none or are comments of what follows. A filtered file leaves out the lines of what is filtered.
-/

namespace Esnacc.Compiler.CommentParser

/-! ### Lines in front -/

/-- The line has a comment and nothing else. -/
def isCommentLine (raw : Text) : Bool :=
  decide (szLine raw = []) && (splitComment (trim raw)).isSome

/-- The comments that are collected in a type. -/
def collectAll (cs : List Text) (lead : List Text) : List Text :=
  (lead.filter fun raw => szLine raw = []).foldl (fun cs raw => collect cs (szComment raw)) cs

/-- The comments that are collected outside of types. -/
def noteAll (cs : List Text) (lead : List Text) : List Text :=
  (lead.filter fun raw => szLine raw = []).foldl (fun cs raw => note cs (szComment raw)) cs

/-- The comments before a member, and the one behind it. -/
def memberComments (lead : List Text) (line : Text) : List Text :=
  collect (collectAll [] lead) (szComment line)

/-- Of the lines in front of what is filtered those stay that are no comment lines. -/
def others (lead : List Text) : List Text := lead.filter fun raw => !isCommentLine raw

/-- The lines in front of something, and its own. -/
def keptLines (filtered : Bool) (lead own : List Text) : List Text :=
  if filtered then others lead else lead ++ own

/-- Nothing is waiting in front of what is filtered but comment lines. -/
def Alone (filtered waiting : Bool) (lead : List Text) : Prop :=
  filtered = true → waiting = false ∧ ∀ raw ∈ lead, isCommentLine raw = true

instance (filtered waiting : Bool) (lead : List Text) : Decidable (Alone filtered waiting lead) :=
  inferInstanceAs (Decidable (_ → _))

/-- The comment says nothing about the two properties. -/
def Untagged (comment : Text) : Prop :=
  "@private".toList.isPrefixOf (trim comment) = false ∧
    "@deprecated".toList.isPrefixOf (trim comment) = false

instance (comment : Text) : Decidable (Untagged comment) := inferInstanceAs (Decidable (_ ∧ _))

/-- The line says nothing that is needed. -/
def Harmless (raw : Text) : Prop := szLine raw ≠ [] ∨ Untagged (szComment raw)

instance (raw : Text) : Decidable (Harmless raw) := inferInstanceAs (Decidable (_ ∨ _))

/-- The lines in front of a member come through. Where a SEQUENCE OF member stands before it, that
member is `taking` the first of them. -/
def Front (strict filtered waiting taking : Bool) (lead : List Text) : Prop :=
  strict = true → Alone filtered waiting lead ∧
    (taking = true → filtered = false ∧ ∀ raw ∈ lead.head?, Harmless raw)

instance (strict filtered waiting taking : Bool) (lead : List Text) :
    Decidable (Front strict filtered waiting taking lead) :=
  inferInstanceAs (Decidable (_ → _ ∧ (_ → _ ∧ _)))

/-! ### Types -/

/-- The members of a type. A member of an inline type has the lines that open its list, if the
bracket is not behind the type, its members, the lines behind them and the line with the closing
bracket. -/
inductive Members
  | nil
  | plain (lead : List Text) (line : Text) (rest : Members)
  | sequenceOf (lead : List Text) (line : Text) (rest : Members)
  | inline (lead : List Text) (line : Text) (opening : List Text) (members : Members)
      (tail : List Text) (close : Text) (rest : Members)

/-- What stands in a type without being a member. -/
def IsQuiet (raw : Text) : Prop :=
  szLine raw = [] ∨ startsLower (token raw 0) = false ∧ '\x7d' ∉ szLine raw

instance (raw : Text) : Decidable (IsQuiet raw) := inferInstanceAs (Decidable (_ ∨ _))

/-- The list is opened by the last of these lines, unless it is open. -/
def Opens (opened : Bool) (opening : List Text) : Prop :=
  if opened then opening = []
  else (∀ raw ∈ opening.dropLast, '\x7b' ∉ szLine raw) ∧
    ∃ last ∈ opening.getLast?, '\x7b' ∈ szLine last

instance (opened : Bool) (opening : List Text) : Decidable (Opens opened opening) :=
  inferInstanceAs (Decidable (if opened = true then _ = _ else _ ∧ _))

/-- The line with the closing bracket, which may have the last member in front. -/
structure Closes (tail : List Text) (close : Text) : Prop where
  quiet : ∀ raw ∈ tail, IsQuiet raw
  bracket : '\x7d' ∈ szLine close
  not_sequenceOf : isSequenceOf (token close 1) (token close 2) = false
  not_opens : opensType (token close 1) (token close 2) = false

instance (tail : List Text) (close : Text) : Decidable (Closes tail close) :=
  decidable_of_iff ((∀ raw ∈ tail, IsQuiet raw) ∧ '\x7d' ∈ szLine close ∧
      isSequenceOf (token close 1) (token close 2) = false ∧
      opensType (token close 1) (token close 2) = false)
    ⟨fun h => ⟨h.1, h.2.1, h.2.2.1, h.2.2.2⟩, fun h => ⟨h.1, h.2, h.3, h.4⟩⟩

/-- The member in the closing line is filtered. -/
def dropsClose (cfg : Config) (tail : List Text) (close : Text) : Bool :=
  startsLower (token close 0) && dropsMember cfg (memberComments tail close)

namespace Members

def lines : Members → List Text
  | .nil => []
  | .plain lead line rest | .sequenceOf lead line rest => lead ++ line :: rest.lines
  | .inline lead line opening members tail close rest =>
      lead ++ line :: (opening ++ (members.lines ++ (tail ++ close :: rest.lines)))

/-- The lines of a member of an inline type stay or go with its body. -/
def kept (cfg : Config) : Members → List Text
  | .nil => []
  | .plain lead line rest | .sequenceOf lead line rest =>
      keptLines (dropsMember cfg (memberComments lead line)) lead [line] ++ rest.kept cfg
  | .inline lead line opening members tail close rest =>
      keptLines (dropsMember cfg (memberComments lead line)) lead
        (line :: (opening ++ members.kept cfg ++
          keptLines (dropsClose cfg tail close) tail [close])) ++
      rest.kept cfg

def Layout : Members → Prop
  | .nil => True
  | .plain lead line rest =>
      (∀ raw ∈ lead, IsQuiet raw) ∧ startsLower (token line 0) = true ∧
        isSequenceOf (token line 1) (token line 2) = false ∧
        opensType (token line 1) (token line 2) = false ∧ rest.Layout
  | .sequenceOf lead line rest =>
      (∀ raw ∈ lead, IsQuiet raw) ∧ startsLower (token line 0) = true ∧
        isSequenceOf (token line 1) (token line 2) = true ∧ rest.Layout
  | .inline lead line opening members tail close rest =>
      (∀ raw ∈ lead, IsQuiet raw) ∧ startsLower (token line 0) = true ∧
        opensType (token line 1) (token line 2) = true ∧
        Opens (token line 2 = ['\x7b']) opening ∧ members.Layout ∧ Closes tail close ∧ rest.Layout

instance decidableLayout : (members : Members) → Decidable members.Layout
  | .nil => isTrue trivial
  | .plain _ _ rest =>
      have := decidableLayout rest
      inferInstanceAs (Decidable (_ ∧ _ ∧ _ ∧ _ ∧ _))
  | .sequenceOf _ _ rest =>
      have := decidableLayout rest
      inferInstanceAs (Decidable (_ ∧ _ ∧ _ ∧ _))
  | .inline _ _ _ members _ _ rest =>
      have := decidableLayout members
      have := decidableLayout rest
      inferInstanceAs (Decidable (_ ∧ _ ∧ _ ∧ _ ∧ _ ∧ _ ∧ _))

/-- Whether lines are still waiting behind the members. -/
def waits : Members → Bool → Bool
  | .nil, waiting => waiting
  | .plain _ _ _, _ | .sequenceOf _ _ _, _ | .inline _ _ _ _ _ _ _, _ => false

/-- Whether a SEQUENCE OF member is taking the line behind the members. A line that is taken is
not looked at. -/
def takes : Members → Bool → Bool
  | .nil, taking => taking
  | .plain _ _ rest, _ | .inline _ _ _ _ _ _ rest, _ => rest.takes false
  | .sequenceOf lead _ rest, taking => rest.takes (!(taking && lead.isEmpty))

/-- The members meet none of the cases that are handled wrongly. Those that only lose lines or let
them in do no harm inside of what is filtered as a whole, which is when it is not `strict`. -/
def Handled (cfg : Config) (modComment : Comment) :
    Members → (strict waiting taking : Bool) → Prop
  | .nil, _, _, _ => True
  | .plain lead line rest, strict, waiting, taking =>
      Front strict (dropsMember cfg (memberComments lead line)) waiting taking lead ∧
        '\x7d' ∉ szLine line ∧ rest.Handled cfg modComment strict false false
  | .sequenceOf lead line rest, strict, waiting, taking =>
      Front strict (dropsMember cfg (memberComments lead line)) waiting taking lead ∧
        (strict = true → dropsMember cfg (memberComments lead line) = false) ∧
        rest.Handled cfg modComment strict false (!(taking && lead.isEmpty))
  | .inline lead line opening members tail close rest, strict, waiting, taking =>
      (taking = true → lead ≠ []) ∧
        Front strict (dropsMember cfg (memberComments lead line)) waiting taking lead ∧
        (strict = true → dropsWith cfg modComment (memberComments lead line) =
          dropsMember cfg (memberComments lead line)) ∧
        members.Handled cfg modComment
          (strict && !dropsMember cfg (memberComments lead line)) (!opening.isEmpty) false ∧
        (members.takes false = true → tail ≠ []) ∧
        Front (strict && !dropsMember cfg (memberComments lead line)) (dropsClose cfg tail close)
          (members.waits !opening.isEmpty) (members.takes false) tail ∧
        rest.Handled cfg modComment strict false false

instance decidableHandled (cfg : Config) (modComment : Comment) :
    (members : Members) → (strict waiting taking : Bool) →
      Decidable (members.Handled cfg modComment strict waiting taking)
  | .nil, _, _, _ => isTrue trivial
  | .plain _ _ rest, strict, _, _ =>
      have := decidableHandled cfg modComment rest strict false false
      inferInstanceAs (Decidable (_ ∧ _ ∧ _))
  | .sequenceOf lead _ rest, strict, _, taking =>
      have := decidableHandled cfg modComment rest strict false (!(taking && lead.isEmpty))
      inferInstanceAs (Decidable (_ ∧ (_ → _) ∧ _))
  | .inline lead line opening members _ _ rest, strict, _, _ =>
      have := decidableHandled cfg modComment members
        (strict && !dropsMember cfg (memberComments lead line)) (!opening.isEmpty) false
      have := decidableHandled cfg modComment rest strict false false
      inferInstanceAs (Decidable ((_ → _) ∧ _ ∧ (_ → _) ∧ _ ∧ (_ → _) ∧ _ ∧ _))

end Members

/-! ### Definitions -/

/-- What stands behind the first line. An operation or a BIT STRING may be a single line. -/
inductive Body
  | imports
  | importList (mid : List Text) (last : Text)
  | oneLine
  | value
  | operation (mid : List Text) (last : Text)
  | shortOperation
  | type (opening : List Text) (members : Members) (tail : List Text) (close : Text)
  | bitString

def Body.lines : Body → List Text
  | .importList mid last | .operation mid last => mid ++ [last]
  | .type opening members tail close => opening ++ (members.lines ++ (tail ++ [close]))
  | .imports | .oneLine | .value | .shortOperation | .bitString => []

def Body.kept (cfg : Config) : Body → List Text
  | .importList mid last | .operation mid last => mid ++ [last]
  | .type opening members tail close =>
      opening ++ members.kept cfg ++ keptLines (dropsClose cfg tail close) tail [close]
  | .imports | .oneLine | .value | .shortOperation | .bitString => []

structure Item where
  lead : List Text
  line : Text
  body : Body

def isImport (raw : Text) : Prop :=
  token raw 0 = "IMPORTS".toList ∨ token raw 0 = "EXPORTS".toList

instance (raw : Text) : Decidable (isImport raw) := inferInstanceAs (Decidable (_ ∨ _))

/-- A line of a module that is neither empty nor its end and begins no list of imports. -/
structure IsOrdinary (raw : Text) : Prop where
  not_empty : szLine raw ≠ []
  not_end : szLine raw ≠ "END".toList
  not_import : ¬ isImport raw

instance (raw : Text) : Decidable (IsOrdinary raw) :=
  decidable_of_iff (szLine raw ≠ [] ∧ szLine raw ≠ "END".toList ∧ ¬ isImport raw)
    ⟨fun h => ⟨h.1, h.2.1, h.2.2⟩, fun h => ⟨h.1, h.2, h.3⟩⟩

namespace Item

def lines (item : Item) : List Text := item.lead ++ item.line :: item.body.lines

/-- The item is filtered. The types in one line and the values have no share in the properties of
the module. -/
def drops (cfg : Config) (modComment : Comment) (item : Item) : Bool :=
  match item.body with
  | .imports | .importList _ _ => false
  | .oneLine | .value => dropsAlone cfg (noteAll [] item.lead)
  | .operation _ _ | .shortOperation | .type _ _ _ _ | .bitString =>
      dropsWith cfg modComment (noteAll [] item.lead)

def kept (cfg : Config) (modComment : Comment) (item : Item) : List Text :=
  keptLines (item.drops cfg modComment) item.lead (item.line :: item.body.kept cfg)

def DefinesType (line : Text) : Prop :=
  IsOrdinary line ∧ startsUpper (szLine line) = true ∧ token line 1 = "::=".toList

def DefinesValue (line : Text) : Prop := IsOrdinary line ∧ startsLower (szLine line) = true

instance (line : Text) : Decidable (DefinesType line) := inferInstanceAs (Decidable (_ ∧ _ ∧ _))

instance (line : Text) : Decidable (DefinesValue line) := inferInstanceAs (Decidable (_ ∧ _))

/-- The opening bracket is in the first line. -/
def opened (line : Text) : Bool :=
  if isBitString (token line 2) (token line 3) then decide ('\x7b' ∈ szLine line)
  else token line 3 = ['\x7b']

def Layout (item : Item) : Prop :=
  (∀ raw ∈ item.lead, szLine raw = []) ∧
    match item.body with
    | .imports =>
        szLine item.line ≠ "END".toList ∧ isImport item.line ∧ ';' ∈ szLine item.line
    | .importList mid last =>
        szLine item.line ≠ "END".toList ∧ isImport item.line ∧ ';' ∉ szLine item.line ∧
          (∀ raw ∈ mid, szLine raw = [] ∨ IsOrdinary raw ∧ ';' ∉ szLine raw) ∧
          IsOrdinary last ∧ ';' ∈ szLine last
    | .oneLine =>
        DefinesType item.line ∧ (isSequenceOf (token item.line 2) (token item.line 3) = true ∨
          opensType (token item.line 2) (token item.line 3) = false ∧
            isBitString (token item.line 2) (token item.line 3) = false)
    | .value => DefinesValue item.line ∧ token item.line 1 ≠ "OPERATION".toList
    | .operation mid last =>
        DefinesValue item.line ∧ token item.line 1 = "OPERATION".toList ∧
          (∀ raw ∈ mid, hasAssignment (szLine raw) = false) ∧ hasAssignment (szLine last) = true
    | .shortOperation =>
        DefinesValue item.line ∧ token item.line 1 = "OPERATION".toList ∧
          hasAssignment (szLine item.line) = true
    | .type opening members tail close =>
        DefinesType item.line ∧ (opensType (token item.line 2) (token item.line 3) = true ∨
          isBitString (token item.line 2) (token item.line 3) = true) ∧
          Opens (opened item.line) opening ∧ members.Layout ∧ Closes tail close
    | .bitString =>
        DefinesType item.line ∧ isBitString (token item.line 2) (token item.line 3) = true

instance : (item : Item) → Decidable item.Layout
  | ⟨_, _, .imports⟩ => inferInstanceAs (Decidable (_ ∧ _ ∧ _ ∧ _))
  | ⟨_, _, .importList _ _⟩ => inferInstanceAs (Decidable (_ ∧ _ ∧ _ ∧ _ ∧ _ ∧ _ ∧ _))
  | ⟨_, _, .oneLine⟩ => inferInstanceAs (Decidable (_ ∧ _ ∧ (_ ∨ _)))
  | ⟨_, _, .value⟩ => inferInstanceAs (Decidable (_ ∧ _ ∧ _))
  | ⟨_, _, .operation _ _⟩ => inferInstanceAs (Decidable (_ ∧ _ ∧ _ ∧ _ ∧ _))
  | ⟨_, _, .shortOperation⟩ => inferInstanceAs (Decidable (_ ∧ _ ∧ _ ∧ _))
  | ⟨_, _, .type _ _ _ _⟩ => inferInstanceAs (Decidable (_ ∧ _ ∧ (_ ∨ _) ∧ _ ∧ _ ∧ _))
  | ⟨_, _, .bitString⟩ => inferInstanceAs (Decidable (_ ∧ _ ∧ _))

/-- Whether the item is still waiting behind its last line. -/
def waits (item : Item) : Bool :=
  match item.body with
  | .imports => true
  | .importList _ _ | .oneLine | .value | .operation _ _ | .shortOperation | .type _ _ _ _
  | .bitString => false

/-- The item meets none of the cases that are handled wrongly. -/
def Handled (cfg : Config) (modComment : Comment) (item : Item) (strict waiting : Bool) : Prop :=
  (strict = true → Alone (item.drops cfg modComment) waiting item.lead ∧
      (item.drops cfg modComment = true →
        ∀ raw ∈ item.lead, "@clear".toList.isPrefixOf (szComment raw) = false)) ∧
    match item.body with
    | .imports => strict = true → ∀ raw ∈ item.lead, Untagged (szComment raw)
    | .importList mid _ =>
        strict = true → ∀ raw ∈ item.lead ++ mid, szLine raw = [] → Untagged (szComment raw)
    | .oneLine | .operation _ _ => True
    | .value => strict = true → item.drops cfg modComment = false
    | .shortOperation | .bitString => False
    | .type opening members tail close =>
        (isBitString (token item.line 2) (token item.line 3) = true → opening ≠ []) ∧
          members.Handled cfg modComment (strict && !item.drops cfg modComment)
            (!opening.isEmpty) false ∧
          (members.takes false = true → tail ≠ []) ∧
          Front (strict && !item.drops cfg modComment) (dropsClose cfg tail close)
            (members.waits !opening.isEmpty) (members.takes false) tail

instance (cfg : Config) (modComment : Comment) :
    (item : Item) → (strict waiting : Bool) →
      Decidable (item.Handled cfg modComment strict waiting)
  | ⟨_, _, .imports⟩, _, _ => inferInstanceAs (Decidable ((_ → _ ∧ (_ → _)) ∧ (_ → _)))
  | ⟨_, _, .importList _ _⟩, _, _ => inferInstanceAs (Decidable ((_ → _ ∧ (_ → _)) ∧ (_ → _)))
  | ⟨_, _, .oneLine⟩, _, _ => inferInstanceAs (Decidable ((_ → _ ∧ (_ → _)) ∧ True))
  | ⟨_, _, .value⟩, _, _ => inferInstanceAs (Decidable ((_ → _ ∧ (_ → _)) ∧ (_ → _)))
  | ⟨_, _, .operation _ _⟩, _, _ => inferInstanceAs (Decidable ((_ → _ ∧ (_ → _)) ∧ True))
  | ⟨_, _, .shortOperation⟩, _, _ => inferInstanceAs (Decidable ((_ → _ ∧ (_ → _)) ∧ False))
  | ⟨_, _, .type _ _ _ _⟩, _, _ =>
      inferInstanceAs (Decidable ((_ → _ ∧ (_ → _)) ∧ (_ → _) ∧ _ ∧ (_ → _) ∧ _))
  | ⟨_, _, .bitString⟩, _, _ => inferInstanceAs (Decidable ((_ → _ ∧ (_ → _)) ∧ False))

end Item

/-! ### Modules and files -/

/-- A module: the lines in front, those of its header, of which the last ends in BEGIN, its items,
the lines behind them and END. -/
structure Module where
  lead : List Text
  head : List Text
  beginLine : Text
  items : List Item
  tail : List Text
  endLine : Text

/-- A line of a file that begins no module. -/
def IsOutside (raw : Text) : Prop :=
  szLine raw = [] ∨ "BEGIN".toList.isSuffixOf (szLine raw) = false

instance (raw : Text) : Decidable (IsOutside raw) := inferInstanceAs (Decidable (_ ∨ _))

namespace Module

def lines (m : Module) : List Text :=
  m.lead ++ m.head ++ m.beginLine :: (m.items.flatMap Item.lines ++ (m.tail ++ [m.endLine]))

/-- The properties that the comments before BEGIN give to the module. -/
def comment (cfg : Config) (m : Module) : Comment :=
  convertCommentList cfg (noteAll [] (m.lead ++ m.head)) .none

def drops (cfg : Config) (m : Module) : Bool := isFiltered cfg.settings (m.comment cfg)

def kept (cfg : Config) (m : Module) : List Text :=
  keptLines (m.drops cfg) m.lead
    (m.head ++ m.beginLine ::
      (m.items.flatMap (Item.kept cfg (m.comment cfg)) ++ (m.tail ++ [m.endLine])))

def Layout (m : Module) : Prop :=
  (∀ raw ∈ m.lead, szLine raw = []) ∧ (∀ raw ∈ m.head, IsOutside raw) ∧
    szLine m.beginLine ≠ [] ∧ "BEGIN".toList.isSuffixOf (szLine m.beginLine) = true ∧
    (∀ item ∈ m.items, item.Layout) ∧ (∀ raw ∈ m.tail, szLine raw = []) ∧
    szLine m.endLine = "END".toList

instance (m : Module) : Decidable m.Layout :=
  inferInstanceAs (Decidable (_ ∧ _ ∧ _ ∧ _ ∧ _ ∧ _ ∧ _))

end Module

def HandledItems (cfg : Config) (modComment : Comment) (strict : Bool) : List Item → Bool → Prop
  | [], _ => True
  | item :: items, waiting =>
      item.Handled cfg modComment strict waiting ∧
        HandledItems cfg modComment strict items item.waits

instance decidableHandledItems (cfg : Config) (modComment : Comment) (strict : Bool) :
    (items : List Item) → (waiting : Bool) →
      Decidable (HandledItems cfg modComment strict items waiting)
  | [], _ => isTrue trivial
  | item :: items, _ =>
      have := decidableHandledItems cfg modComment strict items item.waits
      inferInstanceAs (Decidable (_ ∧ _))

structure File where
  modules : List Module
  trailing : List Text

/-- In front of a filtered module the file has accepted nothing. -/
def HandledModules (cfg : Config) : List Module → List Text → Prop
  | [], _ => True
  | m :: ms, before =>
      (m.drops cfg = true → before = [] ∧ ∀ raw ∈ m.lead, isCommentLine raw = true ∧
        "@clear".toList.isPrefixOf (szComment raw) = false) ∧
      HandledItems cfg (m.comment cfg) (!m.drops cfg) m.items false ∧
      HandledModules cfg ms (before ++ m.kept cfg)

instance decidableHandledModules (cfg : Config) :
    (modules : List Module) → (before : List Text) → Decidable (HandledModules cfg modules before)
  | [], _ => isTrue trivial
  | m :: ms, before =>
      have := decidableHandledModules cfg ms (before ++ m.kept cfg)
      inferInstanceAs (Decidable ((_ → _) ∧ _ ∧ _))

namespace File

def lines (file : File) : List Text := file.modules.flatMap Module.lines ++ file.trailing

/-- The file without what is filtered. -/
def kept (cfg : Config) (file : File) : List Text :=
  file.modules.flatMap (Module.kept cfg) ++ file.trailing

def Layout (file : File) : Prop :=
  (∀ m ∈ file.modules, m.Layout) ∧ ∀ raw ∈ file.trailing, IsOutside raw

/-- What is filtered stays in no line of the filtered file, and everything else is there. -/
def Faithful (cfg : Config) (file : File) : Prop :=
  filteredFile cfg file.lines = some (file.kept cfg)

def Handled (cfg : Config) (file : File) : Prop := HandledModules cfg file.modules []

instance (file : File) : Decidable file.Layout := inferInstanceAs (Decidable (_ ∧ _))

instance (cfg : Config) (file : File) : Decidable (file.Faithful cfg) :=
  inferInstanceAs (Decidable (_ = _))

instance (cfg : Config) (file : File) : Decidable (file.Handled cfg) :=
  decidableHandledModules cfg file.modules []

end File

end Esnacc.Compiler.CommentParser
