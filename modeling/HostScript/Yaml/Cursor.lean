/-!
# Places in a text of lines

The rest of a text with the line and the column it starts at. In a block, the column of a part tells what it belongs to, and an
entry may begin only where nothing but spaces stands before it on its line; between braces, neither matters.
-/

namespace HostScript.Yaml

/-- A blank inside a line. -/
def isBlank (c : Char) : Bool := c == ' ' || c == '\t'

/-- A character that ends a line. -/
def isBreak (c : Char) : Bool := c == '\n' || c == '\r' || c == '\u0085' || c == '\u2028' || c == '\u2029'

/-- A character that a text may hold: no control character but the tab and the line ends, and nothing set apart by Unicode at the
end of its first plane. -/
def isPrintable (c : Char) : Bool :=
  let n := c.toNat
  c == '\t' || isBreak c || (0x20 ≤ n && n ≤ 0x7E) || (0xA0 ≤ n && n ≤ 0xFFFD) || 0x10000 ≤ n

/-- The text with a line feed for each of its line ends. -/
def unifyBreaks : List Char → List Char
  | [] => []
  | '\r' :: '\n' :: rest => '\n' :: unifyBreaks rest
  | c :: rest => (if isBreak c then '\n' else c) :: unifyBreaks rest

/-- A blank, a line end or the end of the text comes next. -/
def isGap : List Char → Bool
  | [] => true
  | c :: _ => isBlank c || c == '\n'

/-- What a part of a document belongs to. -/
inductive Context
  /-- A mapping between braces. -/
  | flow
  /-- A block, whose parts stand at a column or to the right of it. -/
  | block (column : Nat)
  deriving DecidableEq, Repr

/-- The rest of a text, whose lines end in line feeds, and where it starts. -/
structure Cursor where
  rest : List Char
  line : Nat
  column : Nat
  /-- An entry of a block may begin here. Only spaces may stand before it on its line, besides the mark of an explicit key. -/
  fresh : Bool
  deriving Repr

namespace Cursor

/-- The beginning of a text. A byte order mark takes a column. -/
def ofText (text : String) : Cursor :=
  match unifyBreaks text.toList with
  | '\uFEFF' :: rest => ⟨rest, 0, 1, true⟩
  | rest => ⟨rest, 0, 0, true⟩

/-- Nothing is left. -/
def isAtEnd (cursor : Cursor) : Bool := cursor.rest.isEmpty

/-- The cursor behind a part of the line, in front of the given rest. -/
def moveTo (cursor : Cursor) (rest : List Char) : Cursor :=
  ⟨rest, cursor.line, cursor.column + (cursor.rest.length - rest.length), false⟩

/-- The cursor behind the next `n` characters of the line. -/
def advance (cursor : Cursor) (n : Nat) : Cursor := cursor.moveTo (cursor.rest.drop n)

/-- The cursor behind a mark of one character that an entry may follow on the same line. -/
def advanceFresh (cursor : Cursor) : Cursor := { cursor.advance 1 with fresh := true }

/-- Skips blanks, comments and line ends. In a block, a tab is no blank where an entry may begin. -/
def skipGapFrom (flow comment fresh : Bool) (line column : Nat) : List Char → Cursor
  | [] => ⟨[], line, column, fresh⟩
  | c :: rest =>
    if c == '\n' then skipGapFrom flow false (fresh || !flow) (line + 1) 0 rest
    else if comment || c == ' ' || (c == '\t' && (flow || !fresh)) then skipGapFrom flow comment fresh line (column + 1) rest
    else if c == '#' then skipGapFrom flow true fresh line (column + 1) rest
    else ⟨c :: rest, line, column, fresh⟩

/-- The cursor at the next part of a document. -/
def skipGap (cursor : Cursor) (context : Context) : Cursor :=
  skipGapFrom (context == .flow) false cursor.fresh cursor.line cursor.column cursor.rest

/-- Skips the blanks and line ends that may follow a word in a block, where the word could go on at a column or to the right of it.
After a line end, a tab is a blank only there. -/
def skipFoldsFrom (least : Nat) (fresh : Bool) (line column : Nat) : List Char → Cursor
  | [] => ⟨[], line, column, fresh⟩
  | c :: rest =>
    if c == '\n' then skipFoldsFrom least true (line + 1) 0 rest
    else if c == ' ' || (c == '\t' && (!fresh || least ≤ column)) then skipFoldsFrom least fresh line (column + 1) rest
    else ⟨c :: rest, line, column, fresh⟩

/-- The cursor at the part of a document that follows a word. -/
def skipAfterWord (cursor : Cursor) (context : Context) : Cursor :=
  match context with
  | .flow => cursor.skipGap context
  | .block least => (skipFoldsFrom least cursor.fresh cursor.line cursor.column cursor.rest).skipGap context

/-- A mark of three characters stands alone at the start of a line. -/
def isAtMark (cursor : Cursor) (mark : List Char) : Bool :=
  cursor.column == 0 && mark.isPrefixOf cursor.rest && isGap (cursor.rest.drop mark.length)

/-- A mark that opens a document. -/
def isAtOpening (cursor : Cursor) : Bool := cursor.isAtMark ['-', '-', '-']

/-- A mark that closes a document. -/
def isAtClosing (cursor : Cursor) : Bool := cursor.isAtMark ['.', '.', '.']

/-- The cursor at what follows a mark that opens or closes a document. -/
def skipMark (cursor : Cursor) : Cursor := (cursor.advance 3).skipGap (.block 0)

end Cursor

end HostScript.Yaml
