import HostScript.Text.Escaped

/-!
# Sources and diagnostics

A named text with its lines, the spans that point into it, and the diagnostics that quote one of its lines. Offsets count bytes
of the text, lines and columns count from one.
-/

namespace HostScript

/-- The number of bytes of a text. -/
def byteLength (text : List Char) : Nat := text.foldr (fun c bytes => c.utf8Size + bytes) 0

/-- A line of a text, without its end: the offset at which it starts and its characters. -/
structure Line where
  start : Nat
  text : List Char
  deriving DecidableEq, Repr

/-- The offset at which a line ends, before its line end. -/
def Line.stop (line : Line) : Nat := line.start + byteLength line.text

/-- The column that is some columns behind another. Columns are counted in 32 bits: beyond the greatest they begin again at zero. -/
def addColumns (column columns : Nat) : Nat := (column + columns) % 4294967296

/-- The column of the first character that is no blank; a tab counts as four columns. -/
def Line.indent (line : Line) : Nat :=
  addColumns ((line.text.takeWhile fun c => c == ' ' || c == '\t').foldr (fun c columns => (if c == '\t' then 4 else 1) + columns) 0) 1

/-- The line whose characters are given in reverse. A carriage return at its end belongs to the line end. -/
def Line.ofReversed (start : Nat) : List Char → Line
  | '\r' :: before => ⟨start, before.reverse⟩
  | all => ⟨start, all.reverse⟩

/-- The lines of a text from an offset on. The line begun so far is kept in reverse with its offset. -/
def linesFrom (start : Nat) (offset : Nat) (begun : List Char) : List Char → List Line
  | [] => [Line.ofReversed start begun]
  | c :: rest =>
    let next := offset + c.utf8Size
    if c == '\n' then Line.ofReversed start begun :: linesFrom next next [] rest
    else linesFrom start next (c :: begun) rest

/-- A named text. -/
structure Source where
  name : String
  text : String
  deriving DecidableEq, Repr

/-- A stretch of a source: the line and column where it is reported, and the offsets where it starts and stops. -/
structure Span where
  line : Nat
  column : Nat
  start : Nat
  stop : Nat
  deriving DecidableEq, Repr

namespace Source

/-- The number of bytes that the text of a source has at most: offsets of 32 bits, with room for columns that count from one. -/
def maxSize : Nat := 4294967293

/-- The text of a source is not too long. -/
def Fits (source : Source) : Prop := byteLength source.text.toList ≤ maxSize

instance (source : Source) : Decidable source.Fits := inferInstanceAs (Decidable (_ ≤ _))

/-- What is said of a text that is too long for a source. -/
def sizeMessage (source : Source) : String := s!"{source.name} exceeds maximum allowed source file size {maxSize}"

/-- The lines of a source; an empty text and one that ends in a line end have an empty last line. -/
def lines (source : Source) : List Line := linesFrom 0 0 [] source.text.toList

/-- The line of the given index, counted from zero; empty beyond the last. -/
def line (source : Source) (index : Nat) : List Char := ((source.lines[index]?).map Line.text).getD []

/-- The indentation of the line of the given number, counted from one; beyond the last line it is that of an empty line. -/
def lineIndent (source : Source) (number : Nat) : Nat :=
  ((source.lines[number - 1]?).map Line.indent).getD 1

/-- A message of a kind, above which the line is quoted with a caret under the column. -/
def diagnostic (source : Source) (line column : Nat) (kind message : String) : String :=
  if source.lines.length < line then s!"{source.name}: invalid line {line} specified"
  else
    let number := toString line
    let gutter := String.ofList (List.replicate (number.length + 1) ' ')
    let caret := String.ofList (List.replicate (column - 1) ' ')
    let quoted := String.ofList (source.line (line - 1))
    s!"\n--> {source.name}:{line}:{column}\n{gutter}|\n{number} | {quoted}\n{gutter}| {caret}^\n{kind}: {message}"

/-- An error message at a line and column. -/
def errorAt (source : Source) (line column : Nat) (message : String) : String :=
  source.diagnostic line column "error" message

/-- An error message at a span. -/
def error (source : Source) (span : Span) (message : String) : String := source.errorAt span.line span.column message

end Source

/-- The characters of a span. -/
def Source.slice (source : Source) (span : Span) : String := String.Pos.Raw.extract source.text ⟨span.start⟩ ⟨span.stop⟩

/-- How diagnostics show a span: its numbers and an excerpt of its text. -/
def Source.showSpan (source : Source) (span : Span) : String :=
  s!"{span.line}:{span.column}:{span.start}:{span.stop}, {Text.excerpt (source.slice span)}"

end HostScript
