import Esnacc.Json.Writer

/-!
The reader of JSON texts, `Reader`, with the features it has by default: comments are allowed,
a document may be any value, a null may not be left out and no number is a name. Comments are
passed over, positions in the document are not kept, and what has been read of a document that
is refused is not either.
-/

namespace Esnacc.SJson

open BitString

inductive TokenType
  | endOfStream | objectBegin | objectEnd | arrayBegin | arrayEnd | string | number | tokenTrue
  | tokenFalse | null | arraySeparator | memberSeparator | comment | error
  deriving DecidableEq, Repr

/-- The type of a token and the octets from its start to its end. -/
structure Token where
  type : TokenType
  text : List Octet
  deriving DecidableEq, Repr

/-- What a scan returns, and the octets that follow. -/
structure Scan where
  ok : Bool
  token : Token
  rest : List Octet
  deriving DecidableEq, Repr

/-! ### Tokens -/

def isSpace (c : Octet) : Bool := c = 0x20 ∨ c = 0x09 ∨ c = 0x0D ∨ c = 0x0A

def isDigit (c : Octet) : Bool := 0x30 ≤ c.toNat ∧ c.toNat ≤ 0x39

def skipSpaces (current : List Octet) : List Octet := current.dropWhile isSpace

/-- Whether the string ends, its octets behind the quote, and what follows. -/
def readString : List Octet → Bool × List Octet × List Octet
  | [] => (false, [], [])
  | [c] => (c = 0x22, [c], [])
  | c :: e :: rest =>
      if c = 0x5C then
        let r := readString rest
        (r.1, c :: e :: r.2.1, r.2.2)
      else if c = 0x22 then (true, [c], e :: rest)
      else
        let r := readString (e :: rest)
        (r.1, c :: r.2.1, r.2.2)

def digitsOf (current : List Octet) : List Octet × List Octet := current.span isDigit

def readFraction : List Octet → List Octet × List Octet
  | c :: rest => if c = 0x2E then ((c :: (digitsOf rest).1), (digitsOf rest).2) else ([], c :: rest)
  | [] => ([], [])

def readSign : List Octet → List Octet × List Octet
  | c :: rest => if c = 0x2B ∨ c = 0x2D then ([c], rest) else ([], c :: rest)
  | [] => ([], [])

def readExponent : List Octet → List Octet × List Octet
  | c :: rest =>
      if c = 0x65 ∨ c = 0x45 then
        let sign := readSign rest
        (c :: (sign.1 ++ (digitsOf sign.2).1), (digitsOf sign.2).2)
      else ([], c :: rest)
  | [] => ([], [])

/-- The octets of a number behind the first, and what follows. -/
def readNumber (current : List Octet) : List Octet × List Octet :=
  let integral := digitsOf current
  let fraction := readFraction integral.2
  let exponent := readExponent fraction.2
  (integral.1 ++ fraction.1 ++ exponent.1, exponent.2)

/-- Whether the pattern comes next; then it is read. -/
def «match» (pattern current : List Octet) : Bool × List Octet × List Octet :=
  if pattern <+: current then (true, pattern, current.drop pattern.length)
  else (false, [], current)

def readCStyleComment : List Octet → Bool × List Octet × List Octet
  | [] => (false, [], [])
  | [c] => (c = 0x2F, [c], [])
  | c :: e :: rest =>
      if c = 0x2A ∧ e = 0x2F then (true, [c, e], rest)
      else
        let r := readCStyleComment (e :: rest)
        (r.1, c :: r.2.1, r.2.2)

def readCppStyleComment : List Octet → Bool × List Octet × List Octet
  | [] => (true, [], [])
  | c :: rest =>
      if c = 0x0A then (true, [c], rest)
      else if c = 0x0D then
        match rest with
        | e :: rest' => if e = 0x0A then (true, [c, e], rest') else (true, [c], e :: rest')
        | [] => (true, [c], [])
      else
        let r := readCppStyleComment rest
        (r.1, c :: r.2.1, r.2.2)

def readComment : List Octet → Bool × List Octet × List Octet
  | [] => (false, [], [])
  | c :: rest =>
      if c = 0x2A then
        let r := readCStyleComment rest
        (r.1, c :: r.2.1, r.2.2)
      else if c = 0x2F then
        let r := readCppStyleComment rest
        (r.1, c :: r.2.1, r.2.2)
      else (false, [c], rest)

/-- A token of one octet. -/
def single (type : TokenType) (c : Octet) (rest : List Octet) : Scan := ⟨true, ⟨type, [c]⟩, rest⟩

/-- A token of more octets, which is an error if it is not read well. -/
def scanned (type : TokenType) (c : Octet) (r : Bool × List Octet × List Octet) : Scan :=
  ⟨r.1, ⟨if r.1 then type else .error, c :: r.2.1⟩, r.2.2⟩

def readToken (current : List Octet) : Scan :=
  match skipSpaces current with
  | [] => ⟨true, ⟨.endOfStream, []⟩, []⟩
  | c :: rest =>
      if c = 0x7B then single .objectBegin c rest
      else if c = 0x7D then single .objectEnd c rest
      else if c = 0x5B then single .arrayBegin c rest
      else if c = 0x5D then single .arrayEnd c rest
      else if c = 0x22 then scanned .string c (readString rest)
      else if c = 0x2F then scanned .comment c (readComment rest)
      else if isDigit c ∨ c = 0x2D then ⟨true, ⟨.number, c :: (readNumber rest).1⟩, (readNumber rest).2⟩
      else if c = 0x74 then scanned .tokenTrue c («match» (Value.name "rue") rest)
      else if c = 0x66 then scanned .tokenFalse c («match» (Value.name "alse") rest)
      else if c = 0x6E then scanned .null c («match» (Value.name "ull") rest)
      else if c = 0x2C then single .arraySeparator c rest
      else if c = 0x3A then single .memberSeparator c rest
      else if c = 0 then single .endOfStream c rest
      else ⟨false, ⟨.error, [c]⟩, rest⟩

def skipComments : ℕ → Scan → Scan
  | 0, s => s
  | n + 1, s => if s.ok ∧ s.token.type = .comment then skipComments n (readToken s.rest) else s

/-- No document has more comments than octets. -/
def readTokenSkippingComments (current : List Octet) : Scan :=
  skipComments current.length (readToken current)

/-! ### Numbers and strings -/

/-- The value of the digits, or nothing if they are none or too many for an integer. -/
def integerOf (maxIntegerValue : ℕ) : List Octet → (value : ℕ) → Option ℕ
  | [], value => some value
  | c :: rest, value =>
      if isDigit c = false then none
      else
        let digit := c.toNat - 0x30
        if maxIntegerValue / 10 ≤ value ∧ (maxIntegerValue / 10 < value ∨ rest ≠ [] ∨
            maxIntegerValue % 10 < digit) then none
        else integerOf maxIntegerValue rest (value * 10 + digit)

variable {ρ : Type} [DecidableEq ρ] (D : Doubles ρ)

def decodeDouble (text : List Octet) : Except (List Octet) (Node ρ) :=
  let r := D.extract text
  if r.1 then .ok (.realValue r.2)
  else if r.2 = D.max then .ok (.realValue D.infinity)
  else if r.2 = D.lowest then .ok (.realValue D.minusInfinity)
  else if D.isinf r.2 then .ok (.realValue r.2)
  else .error (0x27 :: (text ++ Value.name "' is not a number."))

def isMinus : List Octet → Bool
  | c :: _ => c = 0x2D
  | [] => false

def decodeNumber (text : List Octet) : Except (List Octet) (Node ρ) :=
  let isNegative := isMinus text
  let maxIntegerValue := if isNegative then 2 ^ 63 else 2 ^ 64 - 1
  match integerOf maxIntegerValue (if isNegative then text.tail else text) 0 with
  | none => decodeDouble D text
  | some value =>
      if isNegative then .ok (.intValue (BitVec.ofInt 64 (-value)))
      else if value ≤ 2 ^ 31 - 1 then .ok (.intValue (BitVec.ofNat 64 value))
      else .ok (.uintValue (BitVec.ofNat 64 value))

def hexValue (c : Octet) : Option ℕ :=
  if 0x30 ≤ c.toNat ∧ c.toNat ≤ 0x39 then some (c.toNat - 0x30)
  else if 0x61 ≤ c.toNat ∧ c.toNat ≤ 0x66 then some (c.toNat - 0x57)
  else if 0x41 ≤ c.toNat ∧ c.toNat ≤ 0x46 then some (c.toNat - 0x37)
  else none

/-- `decodeUnicodeEscapeSequence`, with what follows the digits. -/
def decodeUnicodeEscapeSequence : List Octet → Except (List Octet) (ℕ × List Octet)
  | a :: b :: c :: d :: rest =>
      match hexValue a, hexValue b, hexValue c, hexValue d with
      | some a, some b, some c, some d => .ok (((a * 16 + b) * 16 + c) * 16 + d, rest)
      | _, _, _, _ => .error (Value.name
          "Bad unicode escape sequence in string: hexadecimal digit expected.")
  | _ => .error (Value.name "Bad unicode escape sequence in string: four digits expected.")

def decodeUnicodeCodePoint (current : List Octet) : Except (List Octet) (ℕ × List Octet) :=
  match decodeUnicodeEscapeSequence current with
  | .error message => .error message
  | .ok (unicode, rest) =>
      if 0xD800 ≤ unicode ∧ unicode ≤ 0xDBFF then
        if rest.length < 6 then .error (Value.name
          "additional six characters expected to parse unicode surrogate pair.")
        else if [0x5C, 0x75] <+: rest then
          match decodeUnicodeEscapeSequence (rest.drop 2) with
          | .error message => .error message
          | .ok (surrogatePair, rest) =>
              .ok (0x10000 + unicode % 0x400 * 0x400 + surrogatePair % 0x400, rest)
        else .error (Value.name ("expecting another \\u token to begin the second half of " ++
          "a unicode surrogate pair"))
      else .ok (unicode, rest)

def codePointToUTF8 (cp : ℕ) : List Octet :=
  if cp ≤ 0x7F then [BitVec.ofNat 8 cp]
  else if cp ≤ 0x7FF then
    [BitVec.ofNat 8 (0xC0 + cp / 0x40 % 0x20), BitVec.ofNat 8 (0x80 + cp % 0x40)]
  else if cp ≤ 0xFFFF then
    [BitVec.ofNat 8 (0xE0 + cp / 0x1000 % 0x10), BitVec.ofNat 8 (0x80 + cp / 0x40 % 0x40),
      BitVec.ofNat 8 (0x80 + cp % 0x40)]
  else if cp ≤ 0x10FFFF then
    [BitVec.ofNat 8 (0xF0 + cp / 0x40000 % 0x08), BitVec.ofNat 8 (0x80 + cp / 0x1000 % 0x40),
      BitVec.ofNat 8 (0x80 + cp / 0x40 % 0x40), BitVec.ofNat 8 (0x80 + cp % 0x40)]
  else []

/-- What an escape stands for, apart from that of a code point. -/
def unescapeLetter (escape : Octet) : Option Octet :=
  if escape = 0x22 then some 0x22
  else if escape = 0x2F then some 0x2F
  else if escape = 0x5C then some 0x5C
  else if escape = 0x62 then some 0x08
  else if escape = 0x66 then some 0x0C
  else if escape = 0x6E then some 0x0A
  else if escape = 0x72 then some 0x0D
  else if escape = 0x74 then some 0x09
  else none

/-- The loop of `decodeString`, with a pass for each octet at most. -/
def decodeLoop : ℕ → (current decoded : List Octet) → Except (List Octet) (List Octet)
  | 0, _, decoded => .ok decoded
  | _, [], decoded => .ok decoded
  | fuel + 1, c :: current, decoded =>
      if c = 0x22 then .ok decoded
      else if c = 0x5C then
        match current with
        | [] => .error (Value.name "Empty escape sequence in string")
        | escape :: current =>
            match unescapeLetter escape with
            | some letter => decodeLoop fuel current (decoded ++ [letter])
            | none =>
                if escape = 0x75 then
                  match decodeUnicodeCodePoint current with
                  | .error message => .error message
                  | .ok (unicode, current) =>
                      decodeLoop fuel current (decoded ++ codePointToUTF8 unicode)
                else .error (Value.name "Bad escape sequence in string")
      else decodeLoop fuel current (decoded ++ [c])

/-- `decodeString` of a token with its quotes. -/
def decodeString (text : List Octet) : Except (List Octet) (List Octet) :=
  let current := text.tail.dropLast
  decodeLoop current.length current []

/-! ### Values -/

/-- What the calls do that do not return: an exception, or no end. -/
inductive Stop
  | fuel
  | fault (f : Fault)
  deriving DecidableEq

structure Reader where
  current : List Octet
  errors : List (List Octet)
  deriving DecidableEq

/-- The limit of `nodes_`. -/
def stackLimit : ℕ := 1000

def addError (message : List Octet) (r : Reader) : Reader :=
  { r with errors := r.errors ++ [message] }

def skipUntil (skipUntilToken : TokenType) : ℕ → List Octet → List Octet
  | 0, current => current
  | n + 1, current =>
      let skip := readToken current
      if skip.token.type = skipUntilToken ∨ skip.token.type = .endOfStream then skip.rest
      else skipUntil skipUntilToken n skip.rest

/-- `recoverFromError`; every token has an octet. -/
def recoverFromError (skipUntilToken : TokenType) (r : Reader) : Option (Node ρ) × Reader :=
  (none, { r with current := skipUntil skipUntilToken (r.current.length + 1) r.current })

def addErrorAndRecover (message : String) (skipUntilToken : TokenType) (r : Reader) :
    Option (Node ρ) × Reader :=
  recoverFromError skipUntilToken (addError (Value.name message) r)

/-- `currentValue().swapPayload(decoded)`, or what the decoding says. -/
def decoded (r : Reader) : Except (List Octet) (Node ρ) → Option (Node ρ) × Reader
  | .ok value => (some value, r)
  | .error message => (none, addError message r)

/-- Makes a value of the octets of a string. -/
def stringNode (str : List Octet) : Except Fault (Node ρ) :=
  (duplicateAndPrefix str).map .stringValue

def setNode (members : List (List Octet × Node ρ)) (name : List Octet) (value : Node ρ) :
    List (List Octet × Node ρ) :=
  SortedMap.insert Value.memberRank (Value.czString name) value members

mutual

/-- The value that stands next, where `nodes` are on the stack. -/
def readValue : ℕ → (nodes : ℕ) → Reader → Except Stop (Option (Node ρ) × Reader)
  | 0, _, _ => .error .fuel
  | fuel + 1, nodes, r =>
      if stackLimit < nodes then
        .error (.fault (except "Exceeded stackLimit in readValue()." .defaultErrorCode))
      else
        let token := readTokenSkippingComments r.current
        let r := { r with current := token.rest }
        match token.token.type with
        | .objectBegin => readObject fuel nodes [] [] r
        | .arrayBegin =>
            if [0x5D] <+: skipSpaces r.current then
              .ok (some (.arrayValue []), { r with current := (skipSpaces r.current).drop 1 })
            else readElements fuel nodes [] { r with current := skipSpaces r.current }
        | .number => .ok (decoded r (decodeNumber D token.token.text))
        | .string =>
            match decodeString token.token.text with
            | .error message => .ok (none, addError message r)
            | .ok str =>
                match stringNode str with
                | .error f => .error (.fault f)
                | .ok value => .ok (some value, r)
        | .tokenTrue => .ok (some (.booleanValue true), r)
        | .tokenFalse => .ok (some (.booleanValue false), r)
        | .null => .ok (some .nullValue, r)
        | _ => .ok (none,
            addError (Value.name "Syntax error: value, object or array expected.") r)

/-- The loop of `readObject`, with the name of the member before. -/
def readObject : ℕ → (nodes : ℕ) → (name : List Octet) → List (List Octet × Node ρ) → Reader →
    Except Stop (Option (Node ρ) × Reader)
  | 0, _, _, _, _ => .error .fuel
  | fuel + 1, nodes, name, members, r =>
      let tokenName := readTokenSkippingComments r.current
      let r := { r with current := tokenName.rest }
      if tokenName.ok = false then
        .ok (addErrorAndRecover "Missing '\x7d' or object member name" .objectEnd r)
      else if tokenName.token.type = .objectEnd ∧ name = [] then
        .ok (some (.objectValue members), r)
      else if tokenName.token.type = .string then
        match decodeString tokenName.token.text with
        | .error message => .ok (recoverFromError .objectEnd (addError message r))
        | .ok name =>
            let colon := readToken r.current
            let r := { r with current := colon.rest }
            if colon.ok = false ∨ colon.token.type ≠ .memberSeparator then
              .ok (addErrorAndRecover "Missing ':' after object member name" .objectEnd r)
            else
              match readValue fuel (nodes + 1) r with
              | .error stop => .error stop
              | .ok (none, r) => .ok (recoverFromError .objectEnd r)
              | .ok (some value, r) =>
                  let comma := readTokenSkippingComments r.current
                  let r := { r with current := comma.rest }
                  if comma.ok = false ∨ (comma.token.type ≠ .objectEnd ∧
                      comma.token.type ≠ .arraySeparator) then
                    .ok (addErrorAndRecover "Missing ',' or '\x7d' in object declaration"
                      .objectEnd r)
                  else if comma.token.type = .objectEnd then
                    .ok (some (.objectValue (setNode members name value)), r)
                  else readObject fuel nodes name (setNode members name value) r
      else .ok (addErrorAndRecover "Missing '\x7d' or object member name" .objectEnd r)

/-- The loop of `readArray`, behind the elements it has. -/
def readElements : ℕ → (nodes : ℕ) → List (Node ρ) → Reader →
    Except Stop (Option (Node ρ) × Reader)
  | 0, _, _, _ => .error .fuel
  | fuel + 1, nodes, values, r =>
      match readValue fuel (nodes + 1) r with
      | .error stop => .error stop
      | .ok (none, r) => .ok (recoverFromError .arrayEnd r)
      | .ok (some value, r) =>
          let currentToken := readTokenSkippingComments r.current
          let r := { r with current := currentToken.rest }
          if currentToken.ok = false ∨ (currentToken.token.type ≠ .arraySeparator ∧
              currentToken.token.type ≠ .arrayEnd) then
            .ok (addErrorAndRecover "Missing ',' or ']' in array declaration" .arrayEnd r)
          else if currentToken.token.type = .arrayEnd then
            .ok (some (.arrayValue (values ++ [value])), r)
          else readElements fuel nodes (values ++ [value]) r

end

/-- The fuel for a document, two calls for an octet. -/
def fuelFor (document : List Octet) : ℕ := 2 * document.length + 2

/-- `parse`: the value, if the document is accepted, and the messages. -/
def parse (document : List Octet) : Except Stop (Option (Node ρ) × List (List Octet)) :=
  (readValue D (fuelFor document) 1 ⟨document, []⟩).map fun r => (r.1, r.2.errors)

end Esnacc.SJson
