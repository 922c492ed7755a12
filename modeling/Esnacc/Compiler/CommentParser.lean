import Mathlib.Data.List.Basic
import Mathlib.Data.Int.Notation
import Mathlib.Tactic.Common

/-!
The parser for comments, which also writes the filtered source files. It goes through a file line
by line with a stack of open elements. Each element keeps the lines that it has not decided on and
the lines that it has accepted.
-/

namespace Esnacc.Compiler.CommentParser

abbrev Text := List Char

/-! ### Lines -/

/-- `WHITESPACE`. -/
def isSpace (c : Char) : Bool := c ∈ [' ', '\n', '\r', '\t', '\x0c', '\x0b']

def trim (s : Text) : Text := ((s.dropWhile isSpace).reverse.dropWhile isSpace).reverse

/-- What stands before the first `--`, and what stands behind it. -/
def splitComment : Text → Option (Text × Text)
  | '-' :: '-' :: comment => some ([], comment)
  | c :: rest => (splitComment rest).map fun r => (c :: r.1, r.2)
  | [] => none

/-- Two blanks become one, from the left to the right. -/
def replaceBlanks : Text → Text
  | ' ' :: ' ' :: rest => ' ' :: replaceBlanks rest
  | c :: rest => c :: replaceBlanks rest
  | [] => []

/-- The line without its comment. -/
def szLine (raw : Text) : Text :=
  replaceBlanks (((splitComment (trim raw)).elim (trim raw) fun r => trim r.1).map fun c =>
    if c = '\t' then ' ' else c)

/-- The comment of a line. An empty one is a blank, and one that begins with a tilde is none. -/
def szComment (raw : Text) : Text :=
  match splitComment (trim raw) with
  | none => []
  | some (_, comment) =>
      let comment := if (comment.head?.any isSpace) = true then comment.tail else comment
      let comment := if comment = [] then [' '] else comment
      if comment.head? = some '~' then [] else comment

/-- `explode` at the blanks. -/
def explode (line : Text) : List Text := ((line.splitOn ' ').map trim).filter fun t => t ≠ []

def tokens (raw : Text) : List Text := explode (szLine raw)

/-- The token at a place, which is empty behind the last one. -/
def token (raw : Text) (n : ℕ) : Text := (tokens raw).getD n []

def startsUpper (s : Text) : Bool := s.head?.any fun c => 'A' ≤ c ∧ c ≤ 'Z'

def startsLower (s : Text) : Bool := s.head?.any fun c => 'a' ≤ c ∧ c ≤ 'z'

/-- Whether `::=` is in the line. -/
def hasAssignment (line : Text) : Bool := line.tails.any fun t => "::=".toList.isPrefixOf t

/-- SEQUENCE, ENUMERATED or CHOICE without anything behind, or with an opening bracket. -/
def opensType (type₁ type₂ : Text) : Bool :=
  (type₁ = "SEQUENCE".toList ∨ type₁ = "ENUMERATED".toList ∨ type₁ = "CHOICE".toList) ∧
    (type₂ = [] ∨ type₂ = ['\x7b'])

def isSequenceOf (type₁ type₂ : Text) : Bool := type₁ = "SEQUENCE".toList ∧ type₂ = "OF".toList

def isBitString (type₁ type₂ : Text) : Bool := type₁ = "BIT".toList ∧ type₂ = "STRING".toList

/-! ### Filters -/

structure Comment where
  iPrivate : Bool
  i64Deprecated : ℤ
  deriving DecidableEq, Repr

def Comment.none : Comment := ⟨false, 0⟩

structure Settings where
  gPrivateSymbols : Bool
  gi64NoDeprecatedSymbols : ℤ
  deriving DecidableEq, Repr

def isFiltered (settings : Settings) (comment : Comment) : Bool :=
  if !settings.gPrivateSymbols && comment.iPrivate then true
  else if comment.i64Deprecated ≠ 0 ∧ settings.gi64NoDeprecatedSymbols ≠ 0 then
    settings.gi64NoDeprecatedSymbols = 1 ∨
      settings.gi64NoDeprecatedSymbols ≥ comment.i64Deprecated
  else false

/-- The settings, and the reader for dates, which depends on the time zone. -/
structure Config where
  settings : Settings
  convertDateToUnixTime : Text → ℤ

/-- A date in front has eight to ten characters. Without one that counts the time is 1. -/
def handleDeprecated (convertDateToUnixTime : Text → ℤ) (i64Deprecated : ℤ) (comment : Text) : ℤ :=
  let date := comment.takeWhile fun c => c ≠ ' '
  let time := if 8 ≤ date.length ∧ date.length ≤ 10 then convertDateToUnixTime (trim date) else 0
  if 0 < time then time else if 0 < i64Deprecated then i64Deprecated else 1

/-- What one comment says about the two properties. -/
def applyTag (cfg : Config) (properties : Comment) (comment : Text) : Comment :=
  let line := trim comment
  if "@private".toList.isPrefixOf line then { properties with iPrivate := true }
  else if "@deprecated".toList.isPrefixOf line then
    { properties with
      i64Deprecated := handleDeprecated cfg.convertDateToUnixTime properties.i64Deprecated
        (trim (line.drop "@deprecated".length)) }
  else properties

def convertCommentList (cfg : Config) (comments : List Text) (properties : Comment) : Comment :=
  comments.foldl (applyTag cfg) properties

/-- The properties of a member begin without any. -/
def convertMemberCommentList (cfg : Config) (comments : List Text) : Comment :=
  comments.foldl (applyTag cfg) .none

/-- A type or a value that does not begin with the properties of the module. -/
def dropsAlone (cfg : Config) (comments : List Text) : Bool :=
  isFiltered cfg.settings (convertCommentList cfg comments .none)

/-- A type or an operation that begins with the properties of the module. -/
def dropsWith (cfg : Config) (modComment : Comment) (comments : List Text) : Bool :=
  isFiltered cfg.settings (convertCommentList cfg comments modComment)

def dropsMember (cfg : Config) (comments : List Text) : Bool :=
  isFiltered cfg.settings (convertMemberCommentList cfg comments)

/-- A comment joins the ones that are collected. -/
def collect (comments : List Text) (comment : Text) : List Text :=
  if comment = [] then comments else comments ++ [comment]

/-- Outside of types `@clear` forgets what was collected. -/
def note (comments : List Text) (comment : Text) : List Text :=
  if "@clear".toList.isPrefixOf comment then [] else collect comments comment

/-! ### The stack -/

inductive Kind
  | file
  | module (comment : Comment) (waitForSemiColon : Bool)
  | sequence (comment modComment : Comment) (openBracketFound : Bool)
  | sequenceOf (commentsBefore : List Text)
  | operation (comment : Comment)

/-- An element: `m_strRawSourceFileIncrement`, `m_strFilteredFileContent` and the comments that are
collected. -/
structure Element where
  kind : Kind
  increment : List Text
  filtered : List Text
  collected : List Text

namespace Element

def new (kind : Kind) : Element := ⟨kind, [], [], []⟩

variable (el : Element)

def read (raw : Text) : Element := { el with increment := el.increment ++ [raw] }

def accept : Element := { el with filtered := el.filtered ++ el.increment, increment := [] }

def drop : Element := { el with increment := [] }

def judge (filtered : Bool) : Element := if filtered then el.drop else el.accept

def forget : Element := { el with collected := [] }

def collect (comment : Text) : Element :=
  { el with collected := CommentParser.collect el.collected comment }

def note (comment : Text) : Element :=
  { el with collected := CommentParser.note el.collected comment }

def become (kind : Kind) : Element := { el with kind := kind }

end Element

/-- What a line does: it stays in the element, begins another or ends it. -/
inductive Step
  | stay (el : Element)
  | push (el top : Element)
  | done (el : Element) (filtered : Bool)

def fileLine (cfg : Config) (el : Element) (raw : Text) : Step :=
  if szLine raw = [] then .stay ((el.read raw).note (szComment raw))
  else if "BEGIN".toList.isSuffixOf (szLine raw) then
    .push (el.read raw).forget
      (.new (.module (convertCommentList cfg el.collected .none) false))
  else .stay (el.read raw)

/-- A line of a module that defines a type. BIT STRING is taken for the begin of a list. -/
def typeLine (cfg : Config) (modComment : Comment) (el : Element) (raw : Text) : Step :=
  if token raw 1 ≠ "::=".toList then .stay el
  else if isSequenceOf (token raw 2) (token raw 3) then
    .stay (el.judge (dropsAlone cfg el.collected)).forget
  else if opensType (token raw 2) (token raw 3) ∨ isBitString (token raw 2) (token raw 3) then
    .push el.forget (.new (.sequence (convertCommentList cfg el.collected modComment) modComment
      (token raw 3 = ['\x7b'])))
  else .stay (el.judge (dropsAlone cfg el.collected)).forget

/-- A line of a module that defines an operation or a value. A value that is filtered stays in
what is not decided on. -/
def valueLine (cfg : Config) (modComment : Comment) (el : Element) (raw : Text) : Step :=
  if token raw 1 = "OPERATION".toList then
    .push el.forget (.new (.operation (convertCommentList cfg el.collected modComment)))
  else if dropsAlone cfg el.collected then .stay el.forget
  else .stay el.accept.forget

def moduleLine (cfg : Config) (comment : Comment) (wait : Bool) (el : Element) (raw : Text) :
    Step :=
  let line := szLine raw
  let el := el.read raw
  if line = "END".toList then
    .done (el.judge (isFiltered cfg.settings comment)) (isFiltered cfg.settings comment)
  else if line = [] then .stay (el.note (szComment raw))
  else if token raw 0 = "IMPORTS".toList ∨ token raw 0 = "EXPORTS".toList then
    .stay (el.become (.module comment (';' ∉ line)))
  else if wait then .stay (el.accept.become (.module comment (';' ∉ line)))
  else if startsUpper line then typeLine cfg comment el raw
  else if startsLower line then valueLine cfg comment el raw
  else .stay el

/-- A member. An inline type begins with the comments of the member; so does a SEQUENCE OF, which
lasts to the next line. -/
def memberLine (cfg : Config) (modComment : Comment) (el : Element) (raw : Text) :
    Element × Option Element :=
  let el := el.collect (szComment raw)
  let decided := (el.judge (dropsMember cfg el.collected)).forget
  if isSequenceOf (token raw 1) (token raw 2) then
    (decided, some (.new (.sequenceOf el.collected)))
  else if opensType (token raw 1) (token raw 2) then
    (decided, some (.new (.sequence (convertCommentList cfg el.collected modComment) modComment
      (token raw 2 = ['\x7b']))))
  else (decided, none)

/-- The check for the end of a type. -/
def closeLine (cfg : Config) (comment : Comment) (el : Element) (raw : Text) : Step :=
  if '\x7d' ∈ szLine raw then .done el.accept (isFiltered cfg.settings comment) else .stay el

def sequenceLine (cfg : Config) (comment modComment : Comment) (opened : Bool) (el : Element)
    (raw : Text) : Step :=
  let el := el.read raw
  if !opened then
    .stay (el.become (.sequence comment modComment ('\x7b' ∈ szLine raw)))
  else if szLine raw = [] then .stay (el.collect (szComment raw))
  else if startsLower (token raw 0) then
    match memberLine cfg modComment el raw with
    | (el, some top) => .push el top
    | (el, none) => closeLine cfg comment el raw
  else closeLine cfg comment el raw

def sequenceOfLine (cfg : Config) (commentsBefore : List Text) (el : Element) (raw : Text) : Step :=
  .done ((el.read raw).judge (dropsAlone cfg commentsBefore)) (dropsAlone cfg commentsBefore)

def operationLine (cfg : Config) (comment : Comment) (el : Element) (raw : Text) : Step :=
  if hasAssignment (szLine raw) then
    .done ((el.read raw).judge (isFiltered cfg.settings comment))
      (isFiltered cfg.settings comment)
  else .stay (el.read raw)

/-- `ProcessLine` of an element. -/
def Element.processLine (cfg : Config) (el : Element) (raw : Text) : Step :=
  match el.kind with
  | .file => fileLine cfg el raw
  | .module comment wait => moduleLine cfg comment wait el raw
  | .sequence comment modComment opened => sequenceLine cfg comment modComment opened el raw
  | .sequenceOf commentsBefore => sequenceOfLine cfg commentsBefore el raw
  | .operation comment => operationLine cfg comment el raw

def Element.isFilteredModule (cfg : Config) (el : Element) : Bool :=
  match el.kind with
  | .module comment _ => isFiltered cfg.settings comment
  | .file | .sequence _ _ _ | .sequenceOf _ | .operation _ => false

/-- The element below gets the accepted lines of one that has ended, behind its own. A filtered
module takes everything along that its file has accepted. -/
def hand (cfg : Config) (el : Element) (filtered : Bool) (below : Element) (bottom : Bool) :
    Element :=
  let below := if filtered then below
    else { below with filtered := below.filtered ++ below.increment ++ el.filtered }
  let below := if bottom && el.isFilteredModule cfg then { below with filtered := [] } else below
  below.drop

/-- `ProcessLine` of the parser. The top of the stack comes first. -/
def processLine (cfg : Config) (stack : List Element) (raw : Text) : List Element :=
  match stack with
  | [] => []
  | el :: stack =>
      match el.processLine cfg raw with
      | .stay el => el :: stack
      | .push el top => top :: el :: stack
      | .done el filtered =>
          match stack with
          | [] => []
          | below :: stack => hand cfg el filtered below stack.isEmpty :: stack

def processLines (cfg : Config) (stack : List Element) (lines : List Text) : List Element :=
  lines.foldl (processLine cfg) stack

/-- The lines that are collected for the filtered file, if nothing but the file is open in the
end. -/
def filteredFile (cfg : Config) (lines : List Text) : Option (List Text) :=
  match processLines cfg [.new .file] lines with
  | [file] => some (file.filtered ++ file.increment)
  | _ => none

end Esnacc.Compiler.CommentParser
