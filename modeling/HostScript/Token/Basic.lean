import HostScript.Source

/-!
# Tokens

The words of a text with the gaps between them. A token keeps its own text and the gap in front of it, so that a row of tokens
can be written out again with its spacing.
-/

namespace HostScript

/-- The classes of tokens. -/
inductive TokenKind
  | symbol
  | string
  | rawString
  | number
  | ident
  deriving DecidableEq, Repr

/-- The name of a class of tokens. -/
def TokenKind.name : TokenKind → String
  | .symbol => "Symbol"
  | .string => "String"
  | .rawString => "RawString"
  | .number => "Number"
  | .ident => "Ident"

/-- A token. The text and the span of a string are what stands between its quotes. -/
structure Token where
  kind : TokenKind
  span : Span
  text : String
  /-- The blanks and comments in front of the token. -/
  gap : String
  deriving DecidableEq, Repr

namespace Token

/-- The quote that delimits a class of tokens. -/
def delimiter? : TokenKind → Option Char
  | .string => some '"'
  | .rawString => some '\x60'
  | _ => none

/-- The token as it is written, with its quotes. -/
def lexeme (token : Token) : String :=
  match delimiter? token.kind with
  | some quote => (String.singleton quote ++ token.text).push quote
  | none => token.text

/-- The offset at which the written token starts. -/
def extentStart (token : Token) : Nat := if (delimiter? token.kind).isSome then token.span.start - 1 else token.span.start

/-- The offset at which the written token stops. -/
def extentStop (token : Token) : Nat := if (delimiter? token.kind).isSome then token.span.stop + 1 else token.span.stop

/-- The token is the given symbol. -/
def isSymbol (token : Token) (text : String) : Bool := token.kind == .symbol && token.text == text

/-- The token is the given word. -/
def isIdent (token : Token) (text : String) : Bool := token.kind == .ident && token.text == text

/-- The line on which the token ends. Raw strings may span several. -/
def endLine (token : Token) : Nat :=
  if token.kind == .rawString then token.span.line + token.text.toList.count '\n' else token.span.line

end Token

end HostScript
