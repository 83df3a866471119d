/-!
# Places in a data text

The rest of a text with the place it starts at, and what can be wrong at a place. Lines count from one; the column is the number
of bytes of the line that have been read.
-/

namespace HostScript.Json

/-- What is wrong with a data text. -/
inductive Problem
  | eofInList
  | eofInObject
  | eofInString
  | eofInValue
  | expectedColon
  | expectedListCommaOrEnd
  | expectedObjectCommaOrEnd
  | expectedIdent
  | expectedValue
  | invalidEscape
  | invalidNumber
  | numberOutOfRange
  | controlCharacter
  | keyMustBeString
  | loneSurrogate
  | trailingComma
  | trailingCharacters
  | unfinishedSurrogatePair
  | recursionLimit
  deriving DecidableEq, Repr

/-- The wording of a problem. -/
def Problem.message : Problem → String
  | .eofInList => "EOF while parsing a list"
  | .eofInObject => "EOF while parsing an object"
  | .eofInString => "EOF while parsing a string"
  | .eofInValue => "EOF while parsing a value"
  | .expectedColon => "expected `:`"
  | .expectedListCommaOrEnd => "expected `,` or `]`"
  | .expectedObjectCommaOrEnd => "expected `,` or `\x7d`"
  | .expectedIdent => "expected ident"
  | .expectedValue => "expected value"
  | .invalidEscape => "invalid escape"
  | .invalidNumber => "invalid number"
  | .numberOutOfRange => "number out of range"
  | .controlCharacter => "control character (\\u0000-\\u001F) found while parsing a string"
  | .keyMustBeString => "key must be a string"
  | .loneSurrogate => "lone leading surrogate in hex escape"
  | .trailingComma => "trailing comma"
  | .trailingCharacters => "trailing characters"
  | .unfinishedSurrogatePair => "unexpected end of hex escape"
  | .recursionLimit => "recursion limit exceeded"

/-- A place in a text. -/
structure Place where
  line : Nat
  column : Nat
  deriving DecidableEq, Repr

/-- A message with its place. -/
def Place.locate (place : Place) (message : String) : String := s!"{message} at line {place.line} column {place.column}"

/-- A problem and where it was noticed. -/
structure Error where
  problem : Problem
  place : Place
  deriving DecidableEq, Repr

/-- The wording of an error. -/
def Error.message (e : Error) : String := e.place.locate e.problem.message

/-- The rest of a text and the place it starts at. -/
structure Cursor where
  rest : List Char
  place : Place
  deriving Repr

namespace Cursor

/-- The beginning of a text. -/
def ofText (text : String) : Cursor := ⟨text.toList, ⟨1, 0⟩⟩

/-- The place after a character. -/
def placeAfter (place : Place) (c : Char) : Place :=
  if c == '\n' then ⟨place.line + 1, 0⟩ else ⟨place.line, place.column + c.utf8Size⟩

/-- The place after the first bytes of a text. The last character may count in part. -/
def placeAfterBytes : Nat → List Char → Place → Place
  | 0, _, place => place
  | _, [], place => place
  | n + 1, c :: rest, place =>
    if c.utf8Size ≤ n + 1 then placeAfterBytes (n + 1 - c.utf8Size) rest (placeAfter place c)
    else ⟨place.line, place.column + (n + 1)⟩
termination_by _ rest => rest.length

/-- An error at the place of the cursor. -/
def fail (cursor : Cursor) (problem : Problem) : Error := ⟨problem, cursor.place⟩

/-- An error at the next character, whose first byte counts as read. -/
def failNext (cursor : Cursor) (problem : Problem) : Error := ⟨problem, placeAfterBytes 1 cursor.rest cursor.place⟩

/-- Blanks between the parts of a data text. -/
def isBlank (c : Char) : Bool := c == ' ' || c == '\n' || c == '\t' || c == '\r'

/-- The cursor after the blanks at a place. -/
def skipBlanksFrom : List Char → Place → Cursor
  | [], place => ⟨[], place⟩
  | c :: rest, place => if isBlank c then skipBlanksFrom rest (placeAfter place c) else ⟨c :: rest, place⟩

/-- The cursor after any blanks. -/
def skipBlanks (cursor : Cursor) : Cursor := skipBlanksFrom cursor.rest cursor.place

/-- The cursor `n` characters on, each of one byte and none of them a line end. -/
def skip (cursor : Cursor) (n : Nat) : Cursor := ⟨cursor.rest.drop n, ⟨cursor.place.line, cursor.place.column + n⟩⟩

end Cursor

end HostScript.Json
