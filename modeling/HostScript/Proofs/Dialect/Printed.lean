import Mathlib
import HostScript.Dialect.Block
import HostScript.Token.Lexer

/-!
# Indented printing

Trees of statements without places, and how they are printed. A tree is well formed if its simple statements and headers are of the
kinds that fit on a line of their own (`bodyFormed`). `laidBody` prints the statements of a body at one column, each body deeper than
its header, and alternates at the column of their `if`. `Shows` puts the statements on lines of a text, with blank lines and comments
between them.
-/

namespace HostScript.Dialect

/-- A token without its place and the gap in front of it. -/
structure Shape where
  kind : TokenKind
  text : String
  deriving DecidableEq, Repr

/-- The tokens of a statement without their places. -/
abbrev Row := List Shape

namespace Shape

/-- A token of the shape, at no place in particular. -/
def token (s : Shape) : Token := ⟨s.kind, ⟨0, 0, 0, 0⟩, s.text, ""⟩

/-- The shape of a symbol. -/
def symbol (text : String) : Shape := ⟨.symbol, text⟩

/-- The shape of a word. -/
def word (text : String) : Shape := ⟨.ident, text⟩

end Shape

/-- The shape of a token. -/
def shapeOf (token : Token) : Shape := ⟨token.kind, token.text⟩

/-- The shapes of a row of tokens. -/
def shapes (tokens : List Token) : Row := tokens.map shapeOf

/-! ## Trees -/

mutual

/-- A simple statement, or a block with the alternates attached to it. -/
inductive Tree
  | simple (row : Row)
  | block (first : Arm) (alternates : List Arm)

/-- A header and its body. -/
inductive Arm
  | mk (header : Row) (body : List Tree)

end

mutual

/-- The trees of nodes: what is left of them without the places of their statements. -/
def treesOf : List Node → List Tree
  | [] => []
  | .simple s :: rest => .simple (shapes s.tokens) :: treesOf rest
  | .block first alternates :: rest => .block (armOf first) (armsOf alternates) :: treesOf rest

/-- The arm of a branch. -/
def armOf : Branch → Arm
  | .mk header body => .mk (shapes header.tokens) (treesOf body)

/-- The arms of alternates. -/
def armsOf : List Branch → List Arm
  | [] => []
  | branch :: rest => armOf branch :: armsOf rest

end

/-! ## Statements that fit on a line -/

/-- The number of brackets open behind a row, if no bracket is closed that was not opened. -/
def nesting (depth : Nat) : Row → Option Nat
  | [] => some depth
  | s :: rest =>
    if isOpen s.token then nesting (depth + 1) rest
    else if isClose s.token then
      match depth with
      | 0 => none
      | depth + 1 => nesting depth rest
    else nesting depth rest

/-- Every bracket of a row is closed in it, and none is closed that was not opened. -/
def Balanced (row : Row) : Prop := nesting 0 row = some 0

/-- No semicolon stands outside the brackets of a row, of which some are open in front of it. -/
def semicolonsInside (depth : Nat) : Row → Prop
  | [] => True
  | s :: rest => (depth = 0 → ¬s.token.isSymbol ";") ∧ semicolonsInside (depthAfter depth s.token) rest

instance decidableSemicolonsInside (depth : Nat) : (row : Row) → Decidable (semicolonsInside depth row)
  | [] => inferInstanceAs (Decidable True)
  | s :: rest =>
    have := decidableSemicolonsInside (depthAfter depth s.token) rest
    inferInstanceAs (Decidable ((depth = 0 → ¬s.token.isSymbol ";") ∧ semicolonsInside (depthAfter depth s.token) rest))

/-- A simple statement: it ends in a semicolon, has no other one outside its brackets, and does not begin like a header. -/
structure IsSimple (row : Row) : Prop where
  terminated : ∃ body, row = body ++ [.symbol ";"] ∧ Balanced body ∧ semicolonsInside 0 body
  head : ∀ word ∈ headerWords, row.head? ≠ some (.word word)

/-- The header of a function, `fun f(ps):`. -/
def IsFunction (row : Row) : Prop :=
  ∃ name params, row = .word "fun" :: .word name :: .symbol "(" :: (params ++ [.symbol ")", .symbol ":"]) ∧ Balanced params

/-- A header with a condition, `word(c):`. -/
def IsConditional (word : String) (row : Row) : Prop :=
  ∃ cond, row = .word word :: .symbol "(" :: (cond ++ [.symbol ")", .symbol ":"]) ∧ Balanced cond

/-- The header `else:`. -/
def IsElse (row : Row) : Prop := row = [.word "else", .symbol ":"]

mutual

/-- The trees of a body are simple statements, functions, loops, and `if`s with their alternates; no body in them is empty. -/
def bodyFormed : List Tree → Prop
  | [] => True
  | .simple row :: rest => IsSimple row ∧ bodyFormed rest
  | .block (.mk header body) alternates :: rest =>
    (((IsFunction header ∨ IsConditional "while" header) ∧ alternates = []) ∨ IsConditional "if" header) ∧
      body ≠ [] ∧ bodyFormed body ∧ alternatesFormed alternates ∧ bodyFormed rest

/-- Alternates are any number of `elif`s and, at the end, perhaps an `else`. -/
def alternatesFormed : List Arm → Prop
  | [] => True
  | .mk header body :: rest =>
    (IsConditional "elif" header ∨ (IsElse header ∧ rest = [])) ∧ body ≠ [] ∧ bodyFormed body ∧ alternatesFormed rest

end

/-! ## Lines -/

/-- A statement or header on a line, with the column at which it begins. -/
structure Printed where
  column : Nat
  row : Row
  deriving DecidableEq, Repr

mutual

/-- The statements of a body stand at one column, on one line each. -/
def laidBody (column : Nat) : List Tree → List Printed → Prop
  | [], lines => lines = []
  | .simple row :: rest, lines => ∃ more, lines = ⟨column, row⟩ :: more ∧ laidBody column rest more
  | .block first alternates :: rest, lines => ∃ arm arms more, lines = arm ++ (arms ++ more) ∧
      laidArm column first arm ∧ laidAlternates column alternates arms ∧ laidBody column rest more

/-- A header stands in front of its body, which is deeper. -/
def laidArm (column : Nat) : Arm → List Printed → Prop
  | .mk header body, lines => ∃ deeper more, column < deeper ∧ lines = ⟨column, header⟩ :: more ∧ laidBody deeper body more

/-- Alternates stand at the column of their `if`. -/
def laidAlternates (column : Nat) : List Arm → List Printed → Prop
  | [], lines => lines = []
  | arm :: rest, lines => ∃ first more, lines = first ++ more ∧ laidArm column arm first ∧ laidAlternates column rest more

end

/-- A blank line or a comment, at any indentation. -/
def IsNoise (line : List Char) : Prop :=
  ∃ blanks comment, (∀ c ∈ blanks, c = ' ' ∨ c = '\t') ∧ '\n' ∉ comment ∧ (line = blanks ∨ line = blanks ++ '#' :: comment)

/-- The column at which a line of text begins, behind its blanks and tabs. -/
def columnOf (line : List Char) : Nat := Line.indent ⟨0, line⟩

/-- Reading has come to the end of a text. -/
def reachesEnd : Lexer.Ending → Bool
  | .complete _ _ => true
  | .stopped _ _ => false

/-- A line of text holds a statement at a column: alone, the line is cut into the tokens of the statement. -/
structure Holds (line : List Char) (printed : Printed) : Prop where
  oneLine : '\n' ∉ line
  row : shapes (Lexer.scanFrom .origin line).1 = printed.row
  ends : reachesEnd (Lexer.scanFrom .origin line).2
  column : columnOf line = printed.column

instance (line : List Char) (printed : Printed) : Decidable (Holds line printed) :=
  decidable_of_iff ('\n' ∉ line ∧ shapes (Lexer.scanFrom .origin line).1 = printed.row ∧
      reachesEnd (Lexer.scanFrom .origin line).2 ∧ columnOf line = printed.column)
    ⟨fun ⟨hline, hrow, hends, hcolumn⟩ => ⟨hline, hrow, hends, hcolumn⟩,
      fun ⟨hline, hrow, hends, hcolumn⟩ => ⟨hline, hrow, hends, hcolumn⟩⟩

/-- Lines of text show printed statements in their order, with blank lines and comments between them. -/
inductive Shows : List Printed → List (List Char) → Prop
  | nil : Shows [] []
  | noise {lines : List Printed} {line : List Char} {text : List (List Char)} (h : IsNoise line) (hrest : Shows lines text) :
      Shows lines (line :: text)
  | statement {printed : Printed} {lines : List Printed} {line : List Char} {text : List (List Char)} (h : Holds line printed)
      (hrest : Shows lines text) : Shows (printed :: lines) (line :: text)

/-- What stands between two lines of a text. -/
def IsLineEnd (eol : List Char) : Prop := eol = ['\n'] ∨ eol = ['\r', '\n']

end HostScript.Dialect
