import HostScript.Token.Basic

/-!
# Statements of the dialect

A row of tokens is cut into statements: at a semicolon or the end of a line outside brackets, and after the colon of a header.
Each statement is given the first rule that fits its tokens.
-/

namespace HostScript.Dialect

/-- How a statement is rendered. -/
inductive Rule
  /-- A binding, `name = expr;`. -/
  | binding
  /-- The header of a function, `fun name(params):`. -/
  | function
  /-- The header `if(cond):`. -/
  | if_
  /-- The header `elif(cond):`. -/
  | elif
  /-- The header `else:`. -/
  | else_
  /-- The header `while(cond):`. -/
  | while_
  /-- Output, `say expr;`. -/
  | say
  /-- Input, `ask expr;`. -/
  | ask
  /-- Any other statement that ends its line with a colon. -/
  | opener
  /-- Everything else is copied. -/
  | verbatim
  deriving DecidableEq, Repr

/-- The statement owns a block. -/
def Rule.opensBlock : Rule → Bool
  | .function | .if_ | .elif | .else_ | .while_ | .opener => true
  | _ => false

/-- The statement is a header of the dialect. -/
def Rule.isHeader : Rule → Bool
  | .function | .if_ | .elif | .else_ | .while_ => true
  | _ => false

/-- The statement continues an `if`. -/
def Rule.isAlternate : Rule → Bool
  | .elif | .else_ => true
  | _ => false

/-- A statement: its tokens, its lines, the indentation of its first line and its rule. -/
structure Statement where
  tokens : List Token
  line : Nat
  endLine : Nat
  indent : Nat
  rule : Rule
  deriving DecidableEq, Repr

/-- An opening bracket of any kind. -/
def isOpen (token : Token) : Bool := token.kind == .symbol && (token.text == "(" || token.text == "[" || token.text == "\x7b")

/-- A closing bracket of any kind. -/
def isClose (token : Token) : Bool := token.kind == .symbol && (token.text == ")" || token.text == "]" || token.text == "\x7d")

/-- The number of brackets open after a token. A closing bracket that closes nothing does not count. -/
def depthAfter (depth : Nat) (token : Token) : Nat :=
  if isOpen token then depth + 1 else if isClose token then depth - 1 else depth

/-- The words that begin a header. -/
def headerWords : List String := ["fun", "if", "elif", "else", "while"]

/-- The words that cannot be bound. -/
def reservedWords : List String :=
  ["ask", "break", "continue", "elif", "else", "fun", "if", "return", "say", "while", "exports"]

/-- A token is the last of its line: none follows, or the next one is on another line than its end. -/
def endsLine (token : Token) : Option Token → Bool
  | none => true
  | some next => next.span.line != token.endLine

/-- A row of tokens that forms a statement, and whether it ends its line. -/
structure Group where
  tokens : List Token
  endsLine : Bool
  deriving DecidableEq, Repr

/-- Groups tokens into statements. `begun` holds the tokens of the statement begun so far, in reverse, `header` tells whether it
begins with a header word, and `depth` is the number of its open brackets. -/
def groupFrom (begun : List Token) (header : Bool) (depth : Nat) : List Token → List Group
  | [] => if begun.isEmpty then [] else [⟨begun.reverse, true⟩]
  | token :: rest =>
    let header := if begun.isEmpty then token.kind == .ident && headerWords.contains token.text else header
    let depth := depthAfter depth token
    let last := endsLine token rest.head?
    if depth == 0 && (token.isSymbol ";" || last || (token.isSymbol ":" && header)) then
      ⟨(token :: begun).reverse, last⟩ :: groupFrom [] false 0 rest
    else groupFrom (token :: begun) header depth rest

/-- The index of the token that closes the bracket at the head of a row. -/
def matchingFrom (depth : Nat) (index : Nat) : List Token → Option Nat
  | [] => none
  | token :: rest =>
    let depth := depthAfter depth token
    if isClose token && depth == 0 then some index else matchingFrom depth (index + 1) rest

/-- The bracket at the head of a row is closed by the last token of the row. -/
def isBracketed (row : List Token) : Bool :=
  (row.head?.any fun t => t.isSymbol "(") && matchingFrom 0 0 row == some (row.length - 1)

/-- The word `fun`, a name, and parameters in brackets that reach to the colon. -/
def isFunctionHeader (tokens : List Token) : Bool :=
  match tokens with
  | _ :: name :: params => 3 ≤ params.length && name.kind == .ident && isBracketed params.dropLast
  | _ => false

/-- The rule for a row of tokens. -/
def classify (group : Group) : Rule :=
  let tokens := group.tokens
  let begins (word : String) : Bool := tokens.head?.any fun t => t.isIdent word
  let terminated := tokens.getLast?.any fun t => t.isSymbol ";"
  let opens := tokens.getLast?.any fun t => t.isSymbol ":"
  let binds : Bool := match tokens with
    | name :: equals :: _ :: _ :: _ =>
      name.kind == .ident && !reservedWords.contains name.text && equals.isSymbol "=" && terminated
    | _ => false
  if binds then .binding
  else if opens && begins "fun" then (if isFunctionHeader tokens then .function else .opener)
  else if opens && begins "if" then (if 2 < tokens.length then .if_ else .opener)
  else if opens && begins "elif" then (if 2 < tokens.length then .elif else .opener)
  else if opens && begins "while" then (if 2 < tokens.length then .while_ else .opener)
  else if opens && begins "else" && tokens.length == 2 then .else_
  else if terminated && begins "say" then .say
  else if terminated && begins "ask" then .ask
  else if opens && group.endsLine then .opener
  else .verbatim

/-- The statement of a group, given the indentation of each line. -/
def Statement.ofGroup (indentOf : Nat → Nat) (group : Group) : Statement :=
  let line := (group.tokens.head?.map fun t => t.span.line).getD 1
  let endLine := (group.tokens.getLast?.map Token.endLine).getD 1
  ⟨group.tokens, line, endLine, indentOf line, classify group⟩

/-- Cuts a row of tokens into statements, given the indentation of each line. -/
def statements (indentOf : Nat → Nat) (tokens : List Token) : List Statement :=
  (groupFrom [] false 0 tokens).map (.ofGroup indentOf)

end HostScript.Dialect
