import Mathlib.Data.List.Basic
import Esnacc.Compiler.CommentLayout

/-!
What the parser for comments keeps of them: an entry for each type, with its members, and for each
operation, made of the comments that are collected when its line comes. A line is looked at by the
element on top of the stack and by no other.
-/

namespace Esnacc.Compiler.CommentParser.CommentMaps

/-! ### Tags -/

/-- How dates are read, which depends on the time zone, and what becomes of the text and the
successor of a deprecated symbol. -/
structure Reader (S : Type) where
  convertDateToUnixTime : Text → ℤ
  unset : S
  handleDeprecated : S → Text → S
  tryParseSuccessorArrowLine : S → Text → S
  bSuccessorParsed : S → Bool

/-- The tags of a type, an operation or a member; only a member has a linked type. -/
structure TagData (S : Type) where
  iPrivate : Bool
  i64Deprecated : ℤ
  deprecated : S
  i64Added : ℤ
  strLinkedType_UTF8 : Text
  deriving DecidableEq

variable {S : Type} (r : Reader S)

def TagData.none : TagData S := ⟨false, 0, r.unset, 0, []⟩

/-- The flags that a type or an operation takes over from its module. -/
def TagData.inherit (modComment : TagData S) : TagData S :=
  { TagData.none r with
    iPrivate := modComment.iPrivate
    i64Deprecated := modComment.i64Deprecated
    i64Added := modComment.i64Added }

def escapeJsonString (input : Text) : Text :=
  input.flatMap fun c =>
    if c = '\\' then "\\\\".toList
    else if c = '"' then "\\\"".toList
    else if c = '/' then "\\/".toList
    else if c = '\x08' then "\\b".toList
    else if c = '\x0c' then "\\f".toList
    else if c = '\n' then "\\n".toList
    else if c = '\r' then "\\r".toList
    else if c = '\t' then "\\t".toList
    else if c = '<' then "&lt;".toList
    else if c = '>' then "&gt;".toList
    else [c]

def afterTag (tag : String) (line : Text) : Text := trim (line.drop tag.toList.length)

/-- What one comment says, and whether a successor is awaited then. -/
def applyTag (isMember : Bool) (state : TagData S × Bool) (comment : Text) : TagData S × Bool :=
  let (data, bAwaitingSuccessor) := state
  let line := trim comment
  if "@private".toList.isPrefixOf line then ({ data with iPrivate := true }, bAwaitingSuccessor)
  else if "@deprecated".toList.isPrefixOf line then
    let text := afterTag "@deprecated" line
    let deprecated := r.handleDeprecated data.deprecated text
    ({ data with
        i64Deprecated :=
          CommentParser.handleDeprecated r.convertDateToUnixTime data.i64Deprecated text
        deprecated := deprecated }, !r.bSuccessorParsed deprecated)
  else if "@added".toList.isPrefixOf line then
    ({ data with i64Added := r.convertDateToUnixTime (afterTag "@added" line) },
      bAwaitingSuccessor)
  else if isMember && "@linked".toList.isPrefixOf line then
    ({ data with
        strLinkedType_UTF8 :=
          data.strLinkedType_UTF8 ++ escapeJsonString (afterTag "@linked" line) },
      bAwaitingSuccessor)
  else if bAwaitingSuccessor && "->".toList.isPrefixOf line then
    let deprecated := r.tryParseSuccessorArrowLine data.deprecated line
    ({ data with deprecated := deprecated }, !r.bSuccessorParsed deprecated)
  else (data, bAwaitingSuccessor)

def convertCommentList (comments : List Text) (data : TagData S) : TagData S :=
  (comments.foldl (applyTag r false) (data, false)).1

def convertMemberCommentList (comments : List Text) : TagData S :=
  (comments.foldl (applyTag r true) (.none r, false)).1

/-! ### The maps -/

/-- An entry of `mapSequences`. In a map the newest entry of a key comes first. -/
structure SequenceComment (S : Type) where
  data : TagData S
  mapMembers : List (Text × TagData S)
  deriving DecidableEq

structure Comments (S : Type) where
  mapModules : List (Text × TagData S)
  mapSequences : List (Text × SequenceComment S)
  mapOperations : List (Text × TagData S)

def moduleKey (szModuleName : Text) : Text := szModuleName.takeWhile fun c => c ≠ '.'

def strKey (szModuleName strTypeName : Text) : Text :=
  moduleKey szModuleName ++ "::".toList ++ strTypeName

variable (szModuleName : Text)

def Comments.setSequence (g : Comments S) (strTypeName : Text) (comment : SequenceComment S) :
    Comments S :=
  { g with mapSequences := (strKey szModuleName strTypeName, comment) :: g.mapSequences }

def Comments.setOperation (g : Comments S) (strTypeName : Text) (comment : TagData S) :
    Comments S :=
  { g with mapOperations := (strKey szModuleName strTypeName, comment) :: g.mapOperations }

def Comments.setModule (g : Comments S) (comment : TagData S) : Comments S :=
  { g with mapModules := (moduleKey szModuleName, comment) :: g.mapModules }

/-! ### The stack -/

inductive Kind (S : Type)
  | file
  | module (comment : TagData S) (waitForSemiColon : Bool)
  | sequence (strTypeName : Text) (comment : SequenceComment S) (modComment : TagData S)
      (openBracketFound : Bool)
  | sequenceOf (strTypeName : Text) (commentsBefore : List Text)
  | operation (strTypeName : Text) (comment : TagData S)

/-- An element with the comments that it has collected. -/
structure Element (S : Type) where
  kind : Kind S
  collected : List Text

/-- What a line does, with the maps behind it. -/
inductive Step (S : Type)
  | stay (el : Element S) (g : Comments S)
  | push (el top : Element S) (g : Comments S)
  | done (g : Comments S)

def fileLine (g : Comments S) (collected : List Text) (raw : Text) : Step S :=
  if szLine raw = [] then .stay ⟨.file, note collected (szComment raw)⟩ g
  else if "BEGIN".toList.isSuffixOf (szLine raw) then
    .push ⟨.file, []⟩ ⟨.module (convertCommentList r collected (.none r)) false, []⟩ g
  else .stay ⟨.file, collected⟩ g

/-- `SetSequenceProperties`. -/
def newSequence (bOpenBracket : Bool) (strTypeName : Text) (modComment : TagData S)
    (comments : List Text) : Element S :=
  ⟨.sequence strTypeName ⟨convertCommentList r comments (.inherit r modComment), []⟩ modComment
    bOpenBracket, []⟩

def typeLine (g : Comments S) (modComment : TagData S) (collected : List Text) (raw : Text) :
    Step S :=
  if token raw 1 ≠ "::=".toList then .stay ⟨.module modComment false, collected⟩ g
  else if isSequenceOf (token raw 2) (token raw 3) then
    .stay ⟨.module modComment false, []⟩ (g.setSequence szModuleName (token raw 0)
      ⟨convertCommentList r collected (.none r), []⟩)
  else if opensType (token raw 2) (token raw 3) ∨ isBitString (token raw 2) (token raw 3) then
    .push ⟨.module modComment false, []⟩
      (newSequence r (token raw 3 = ['\x7b']) (token raw 0) modComment collected) g
  else
    .stay ⟨.module modComment false, []⟩ (g.setSequence szModuleName (token raw 0)
      ⟨convertCommentList r collected (.none r), []⟩)

def valueLine (g : Comments S) (modComment : TagData S) (collected : List Text) (raw : Text) :
    Step S :=
  if token raw 1 = "OPERATION".toList then
    .push ⟨.module modComment false, []⟩
      ⟨.operation (token raw 0) (convertCommentList r collected (.inherit r modComment)), []⟩ g
  -- a value has no entry, but uses up the comments in front of it
  else .stay ⟨.module modComment false, []⟩ g

def moduleLine (g : Comments S) (comment : TagData S) (wait : Bool) (collected : List Text)
    (raw : Text) : Step S :=
  let line := szLine raw
  if line = "END".toList then .done (g.setModule szModuleName comment)
  else if line = [] then .stay ⟨.module comment wait, note collected (szComment raw)⟩ g
  -- what has been collected in front stays there for the next definition
  else if token raw 0 = "IMPORTS".toList ∨ token raw 0 = "EXPORTS".toList then
    .stay ⟨.module comment (';' ∉ line), collected⟩ g
  else if wait then .stay ⟨.module comment (';' ∉ line), collected⟩ g
  else if startsUpper line then typeLine r szModuleName g comment collected raw
  else if startsLower line then valueLine r g comment collected raw
  else .stay ⟨.module comment false, collected⟩ g

/-- The name of a member, which ends at a bracket in an ENUMERATED. -/
def strMember (raw : Text) : Text :=
  (((token raw 0).takeWhile fun c => c ≠ '(').reverse.dropWhile isSpace).reverse.map fun c =>
    if c = '-' then '_' else c

/-- The name of an inline type. -/
def inlineName (strTypeName raw : Text) : Text :=
  strTypeName ++
    if token raw 1 = "SEQUENCE".toList then "Seq".toList
    else if token raw 1 = "ENUMERATED".toList then "Enum".toList
    else "Choice".toList

def closeLine (g : Comments S) (strTypeName : Text) (comment : SequenceComment S)
    (modComment : TagData S) (collected : List Text) (raw : Text) : Step S :=
  if '\x7d' ∈ szLine raw then .done (g.setSequence szModuleName strTypeName comment)
  else .stay ⟨.sequence strTypeName comment modComment true, collected⟩ g

def sequenceLine (g : Comments S) (strTypeName : Text) (comment : SequenceComment S)
    (modComment : TagData S) (opened : Bool) (collected : List Text) (raw : Text) : Step S :=
  -- nothing is collected in front of the bracket
  if !opened then
    .stay ⟨.sequence strTypeName comment modComment ('\x7b' ∈ szLine raw), collected⟩ g
  else if szLine raw = [] then
    .stay ⟨.sequence strTypeName comment modComment true, collect collected (szComment raw)⟩ g
  else if startsLower (token raw 0) then
    let comments := collect collected (szComment raw)
    let comment := { comment with
      mapMembers := (strMember raw, convertMemberCommentList r comments) :: comment.mapMembers }
    -- an inline type gets the comments of its member once more
    let el : Element S := ⟨.sequence strTypeName comment modComment true, []⟩
    if isSequenceOf (token raw 1) (token raw 2) then
      .push el ⟨.sequenceOf (strTypeName ++ "List".toList) comments, []⟩ g
    else if opensType (token raw 1) (token raw 2) then
      .push el (newSequence r (token raw 2 = ['\x7b']) (inlineName strTypeName raw) modComment
        comments) g
    else closeLine szModuleName g strTypeName comment modComment [] raw
  else closeLine szModuleName g strTypeName comment modComment collected raw

/-- `ProcessLine` of an element. A SEQUENCE OF takes the next line, whatever it is. -/
def Element.processLine (g : Comments S) (el : Element S) (raw : Text) : Step S :=
  match el.kind with
  | .file => fileLine r g el.collected raw
  | .module comment wait => moduleLine r szModuleName g comment wait el.collected raw
  | .sequence strTypeName comment modComment opened =>
      sequenceLine r szModuleName g strTypeName comment modComment opened el.collected raw
  | .sequenceOf strTypeName commentsBefore =>
      .done (g.setSequence szModuleName strTypeName
        ⟨convertCommentList r commentsBefore (.none r), []⟩)
  | .operation strTypeName comment =>
      if hasAssignment (szLine raw) then .done (g.setOperation szModuleName strTypeName comment)
      else .stay el g

/-- The stack, with its top first, and the maps. -/
abbrev State (S : Type) := List (Element S) × Comments S

/-- `ProcessLine` of the parser. -/
def processLine (s : State S) (raw : Text) : State S :=
  match s.1 with
  | [] => s
  | el :: stack =>
      match el.processLine r szModuleName s.2 raw with
      | .stay el g => (el :: stack, g)
      | .push el top g => (top :: el :: stack, g)
      | .done g => (stack, g)

def processLines (s : State S) (lines : List Text) : State S :=
  lines.foldl (processLine r szModuleName) s

/-- The maps after a file. -/
def parseFileForComments (g : Comments S) (lines : List Text) : Comments S :=
  (processLines r szModuleName ([⟨.file, []⟩], g) lines).2

end Esnacc.Compiler.CommentParser.CommentMaps
