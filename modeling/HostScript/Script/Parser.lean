import HostScript.Script.Basic
import HostScript.Token.Lexer

/-!
# From tokens to the script's tree

A recursive descent over the tokens of a script, `Module.ofSource`. Binary operators associate to the left on six levels of
precedence. The recursion is bounded by fuel that is computed from the number of tokens; every turn reads a token or goes on to
the next level of the grammar, so the fuel never runs out.
-/

namespace HostScript.Script

/-- What is wrong with a row of tokens. -/
inductive ParseProblem
  | expecting (text context : String)
  | unexpectedKeyword (word : String)
  | expectingIdentifier
  | invalidNumber
  | invalidString (error : Json.Error)
  | unexpectedToken (text : String)
  | invalidTarget
  | unterminatedBlock
  | orphanElse
  | unbalancedBrace
  | unknownImport
  /-- The fuel has run out. -/
  | nestedTooDeeply
  deriving DecidableEq, Repr

/-- The wording of a problem. -/
def ParseProblem.message : ParseProblem → String
  | .expecting text context => "expecting `" ++ text ++ "` " ++ context
  | .unexpectedKeyword word => "unexpected keyword `" ++ word ++ "`"
  | .expectingIdentifier => "expecting identifier"
  | .invalidNumber => "could not parse number"
  | .invalidString e => "invalid string literal. " ++ e.message
  | .unexpectedToken text => "unexpected `" ++ text ++ "` while parsing expression"
  | .invalidTarget => "invalid assignment target"
  | .unterminatedBlock => "unterminated block. missing `\x7d`"
  | .orphanElse => "`else` without a preceding `if`"
  | .unbalancedBrace => "unexpected `\x7d`. unbalanced block delimiters"
  | .unknownImport => "only `host` can be imported"
  | .nestedTooDeeply => "nested too deeply"

/-- Why a text is no script: it cannot be cut into tokens, or its tokens do not fit the grammar. -/
inductive ParseFault
  | lexical (fault : LexFault)
  | grammatical (problem : ParseProblem) (line column : Nat)
  deriving DecidableEq, Repr

/-- The diagnostic of a fault. -/
def ParseFault.message (source : Source) : ParseFault → String
  | .lexical fault => fault.message source
  | .grammatical problem line column => source.errorAt line column problem.message

/-- The tokens that are still to be read, how the row ends, and where the token read last stops. -/
structure Cursor where
  rest : List Token
  ending : Lexer.Ending
  stop : Nat

/-- A reader of tokens. -/
abbrev Parser (α : Type) := StateT Cursor (Except ParseFault) α

namespace Parser

/-- The span of the current token, empty at the end of the text. -/
def currentSpan (cursor : Cursor) : Span :=
  match cursor.rest, cursor.ending with
  | token :: _, _ => token.span
  | [], .complete _ pos => ⟨pos.line, pos.column, pos.offset, pos.offset⟩
  | [], .stopped fault _ => ⟨fault.line, fault.column, cursor.stop, cursor.stop⟩

/-- The span of the current token. -/
def span : Parser Span := do return currentSpan (← get)

/-- The current token; none at the end of the text. -/
def token? : Parser (Option Token) := do return (← get).rest.head?

/-- The text of the current token, empty for strings and at the end of the text. -/
def text : Parser String := do
  match ← token? with
  | some token => return if (Token.delimiter? token.kind).isSome then "" else token.text
  | none => return ""

/-- The end of the text is reached. -/
def atEnd : Parser Bool := do return (← token?).isNone

/-- The current token is the given symbol. -/
def atSymbol (symbol : String) : Parser Bool := do return (← token?).any (·.isSymbol symbol)

/-- The current token is the given word. -/
def atWord (word : String) : Parser Bool := do return (← token?).any (·.isIdent word)

/-- Fails at a span. -/
def failAt {α : Type} (place : Span) (problem : ParseProblem) : Parser α :=
  throw (.grammatical problem place.line place.column)

/-- Fails at the current token. -/
def fail {α : Type} (problem : ParseProblem) : Parser α := do failAt (← span) problem

/-- Refuses to be at a place where no token can be read. -/
def checkEnding (cursor : Cursor) : Except ParseFault Unit :=
  match cursor.rest, cursor.ending with
  | [], .stopped fault _ => .error (.lexical fault)
  | _, _ => .ok ()

/-- Goes on to the next token. -/
def advance : Parser Unit := fun cursor =>
  let next : Cursor := ⟨cursor.rest.tail, cursor.ending, (currentSpan cursor).stop⟩
  (checkEnding next).map fun _ => ((), next)

/-- Reads the given symbol or word. -/
def expect (expected context : String) : Parser Unit := do
  if (← text) == expected then advance else fail (.expecting expected context)

/-- A span from a start to the token read last, reported at the place of another. -/
def cover (reported : Span) (start : Nat) : Parser Span := do return { reported with start := start, stop := (← get).stop }

/-- The words that cannot be names. -/
def keywords : List String :=
  ["break", "continue", "else", "false", "function", "if", "let", "null", "return", "true", "use", "while"]

/-- Reads a name. -/
def ident : Parser Ident := do
  match ← token? with
  | some ⟨.ident, span, name, _⟩ =>
    if keywords.contains name then fail (.unexpectedKeyword name)
    else
      advance
      return ⟨span, name⟩
  | _ => fail .expectingIdentifier

/-- Reads a literal, a variable or one of the constants `null`, `true` and `false`. -/
def atom : Parser Expr := do
  let some token ← token? | fail (.unexpectedToken "")
  let literal (e : Expr) : Parser Expr := do
    advance
    return e
  match token.kind with
  | .number => match Number.ofText? token.text with
    | some n => literal (.number token.span n)
    | none => failAt token.span .invalidNumber
  | .string => match Json.unquote token.lexeme with
    | .ok text => literal (.string token.span text)
    | .error e => failAt token.span (.invalidString e)
  | .rawString => literal (.rawString token.span token.text)
  | .ident =>
    if token.text == "null" then literal (.null token.span)
    else if token.text == "true" then literal (.bool token.span true)
    else if token.text == "false" then literal (.bool token.span false)
    else
      let name ← ident
      return .var name.span name.name
  | .symbol => fail (.unexpectedToken token.text)

/-- Reads nothing in front of a closing symbol, otherwise a first part and those behind it. -/
def upTo {α : Type} (closing : String) (first : Parser α) (more : List α → Parser (List α)) : Parser (List α) := do
  if (← text) == closing then return []
  else more [← first]

/-- Reads an operator, at it, and its operand. -/
def applied (op : UnaryOp) (operand : Parser Expr) : Parser Expr := do
  let reported ← span
  advance
  let operand ← operand
  return .unary (← cover reported reported.start) op operand

/-- Reads the key of a field. A name that is no keyword is a key by itself; any other key is an expression. -/
def fieldKey (computed : Parser Expr) : Parser Expr := do
  match ← token? with
  | some ⟨.ident, span, name, _⟩ =>
    if keywords.contains name then computed
    else
      advance
      return .string span name
  | _ => computed

/-- Reads a field behind its key, and the fields behind a comma that follows it. -/
def fieldsBehind (expr : Parser Expr) (more : List (Span × Expr × Expr) → Parser (List (Span × Expr × Expr))) (reported : Span)
    (key : Expr) (fields : List (Span × Expr × Expr)) : Parser (List (Span × Expr × Expr)) := do
  expect ":" "while parsing object field"
  let value ← expr
  let fields := (← cover reported reported.start, key, value) :: fields
  if (← text) == "," then
    advance
    more fields
  else return fields.reverse

/-- The tightest level of binary operators; the loosest is zero. -/
def tightestLevel : Nat := 5

/-- The operator of a level that a symbol denotes. -/
def operator? (level : Nat) (symbol : String) : Option BinaryOp :=
  match level, symbol with
  | 0, "||" => some (.logic .or)
  | 1, "&&" => some (.logic .and)
  | 2, "==" => some (.compare .eq)
  | 2, "!=" => some (.compare .ne)
  | 3, "<" => some (.compare .lt)
  | 3, "<=" => some (.compare .le)
  | 3, ">" => some (.compare .gt)
  | 3, ">=" => some (.compare .ge)
  | 4, "+" => some (.arith .add)
  | 4, "-" => some (.arith .sub)
  | 5, "*" => some (.arith .mul)
  | 5, "/" => some (.arith .div)
  | 5, "%" => some (.arith .mod)
  | _, _ => none

mutual

/-- Reads an expression of a level: operands of the next level joined by operators of this one. -/
def binary : Nat → Nat → Parser Expr
  | 0, _ => fail .nestedTooDeeply
  | fuel + 1, level => do
    if tightestLevel < level then unary fuel
    else
      let start := (← span).start
      let left ← binary fuel (level + 1)
      operators fuel level start left

/-- Reads the operators of a level and their right operands. -/
def operators : Nat → Nat → Nat → Expr → Parser Expr
  | 0, _, _, _ => fail .nestedTooDeeply
  | fuel + 1, level, start, left => do
    match operator? level (← text) with
    | none => return left
    | some op =>
      let reported ← span
      advance
      let right ← binary fuel (level + 1)
      operators fuel level start (.binary (← cover reported start) op left right)

/-- Reads an expression with any unary operators in front of it. -/
def unary : Nat → Parser Expr
  | 0 => fail .nestedTooDeeply
  | fuel + 1 => do
    let reported ← span
    if ← atSymbol "-" then applied .neg (unary fuel)
    else if ← atSymbol "!" then applied .not (unary fuel)
    else
      let base ← primary fuel
      suffixes fuel reported.start base

/-- Reads an atom, an array, an object or an expression in brackets. -/
def primary : Nat → Parser Expr
  | 0 => fail .nestedTooDeeply
  | fuel + 1 => do
    let reported ← span
    if ← atSymbol "[" then
      advance
      let items ← upTo "]" (binary fuel 0) (moreItems fuel)
      expect "]" "while parsing array"
      return .array (← cover reported reported.start) items
    else if ← atSymbol "\x7b" then
      advance
      let fields ← moreFields fuel []
      expect "\x7d" "while parsing object"
      return .object (← cover reported reported.start) fields
    else if ← atSymbol "(" then
      advance
      let inner ← binary fuel 0
      expect ")" "while parsing parenthesized expression"
      return inner
    else atom

/-- Reads the rest of the items of an array; a comma may end them. -/
def moreItems : Nat → List Expr → Parser (List Expr)
  | 0, _ => fail .nestedTooDeeply
  | fuel + 1, items => do
    if (← text) != "," then return items.reverse
    advance
    if (← text) == "]" || (← atEnd) then return items.reverse
    let item ← binary fuel 0
    moreItems fuel (item :: items)

/-- Reads the rest of the fields of an object; a comma may end them. -/
def moreFields : Nat → List (Span × Expr × Expr) → Parser (List (Span × Expr × Expr))
  | 0, _ => fail .nestedTooDeeply
  | fuel + 1, fields => do
    if (← text) == "\x7d" || (← atEnd) then return fields.reverse
    let reported ← span
    let key ← fieldKey (binary fuel 0)
    fieldsBehind (binary fuel 0) (moreFields fuel) reported key fields

/-- Reads the members, indexes and calls that follow an expression. -/
def suffixes : Nat → Nat → Expr → Parser Expr
  | 0, _, _ => fail .nestedTooDeeply
  | fuel + 1, start, base => do
    let reported ← span
    if ← atSymbol "." then
      advance
      let field ← ident
      suffixes fuel start (.member (← cover reported start) base field)
    else if ← atSymbol "[" then
      advance
      let key ← binary fuel 0
      expect "]" "while parsing bracketed reference"
      suffixes fuel start (.index (← cover reported start) base key)
    else if ← atSymbol "(" then
      advance
      let args ← upTo ")" (binary fuel 0) (moreArgs fuel)
      expect ")" "while parsing call"
      suffixes fuel start (.call (← cover reported start) base args)
    else return base

/-- Reads the rest of the arguments of a call. -/
def moreArgs : Nat → List Expr → Parser (List Expr)
  | 0, _ => fail .nestedTooDeeply
  | fuel + 1, args => do
    if (← text) != "," then return args.reverse
    advance
    let arg ← binary fuel 0
    moreArgs fuel (arg :: args)

end

/-- Fuel for the tokens that are left: more than the number of turns between two tokens, for each of them. -/
def fuel : Parser Nat := do return 16 * ((← get).rest.length + 1)

/-- Reads an expression. -/
def expr : Parser Expr := do binary (← fuel) 0

/-- Reads the rest of the parameters of a function. -/
def moreParams : Nat → List Ident → Parser (List Ident)
  | 0, _ => fail .nestedTooDeeply
  | fuel + 1, params => do
    if (← text) != "," then return params.reverse
    advance
    let param ← ident
    moreParams fuel (param :: params)

/-- Reads a `let` statement. -/
def letStmt : Parser Stmt := do
  let reported ← span
  advance
  let name ← ident
  expect "=" "after variable name in let"
  let value ← expr
  expect ";" "after let statement"
  return .let_ (← cover reported reported.start) name value

/-- Reads a `return` statement. -/
def returnStmt : Parser Stmt := do
  let reported ← span
  advance
  let value ← if ← atSymbol ";" then pure none else do pure (some (← expr))
  expect ";" "after return"
  return .return_ (← cover reported reported.start) value

/-- Reads a `break` or `continue` statement. -/
def loopControl (make : Span → Stmt) : Parser Stmt := do
  let reported ← span
  advance
  expect ";" "after loop control statement"
  return make (← cover reported reported.start)

/-- Reads an assignment or an expression that stands as a statement. -/
def assignOrExpr : Parser Stmt := do
  let reported ← span
  let target ← expr
  if ← atSymbol "=" then
    if !target.isTarget then failAt target.span .invalidTarget
    advance
    let value ← expr
    expect ";" "after assignment"
    return .assign (← cover reported reported.start) target value
  else
    expect ";" "after expression statement"
    return .expr (← cover reported reported.start) target

/-- Reads a condition between brackets, after the word `if` or `while`. -/
def condition (word : String) : Parser Expr := do
  expect "(" ("after " ++ word)
  let cond ← expr
  expect ")" ("after " ++ word ++ " condition")
  return cond

/-- Reads a `function` statement, given the reader of its body. -/
def functionStmt (fuel : Nat) (block : Parser Block) : Parser Stmt := do
  let reported ← span
  advance
  let name ← ident
  expect "(" "after function name"
  let params ← upTo ")" ident (moreParams fuel)
  expect ")" "after function parameters"
  let body ← block
  return .function (← cover reported reported.start) name params body

/-- Reads a `while` statement, given the reader of its body. -/
def whileStmt (block : Parser Block) : Parser Stmt := do
  let reported ← span
  advance
  let cond ← condition "while"
  let body ← block
  return .while_ (← cover reported reported.start) cond body

/-- Reads what follows the block of an `if`, given the readers of another `if` and of a block. -/
def otherwise (again : Parser (Span × Expr × Block × Otherwise)) (block : Parser Block) : Parser Otherwise := do
  if ← atWord "else" then
    advance
    if ← atWord "if" then
      let (span, cond, body, otherwise) ← again
      return .elseIf span cond body otherwise
    else return .block (← block)
  else return .nothing

mutual

/-- Reads a block. -/
def block : Nat → Parser Block
  | 0 => fail .nestedTooDeeply
  | fuel + 1 => do
    let reported ← span
    expect "\x7b" "to open block"
    let stmts ← blockStmts fuel reported []
    return .mk (← cover reported reported.start) stmts

/-- Reads the statements of a block and its closing brace. -/
def blockStmts : Nat → Span → List Stmt → Parser (List Stmt)
  | 0, _, _ => fail .nestedTooDeeply
  | fuel + 1, opening, stmts => do
    if ← atSymbol "\x7d" then
      advance
      return stmts.reverse
    else if ← atEnd then failAt opening .unterminatedBlock
    else
      let s ← stmt fuel
      blockStmts fuel opening (s :: stmts)

/-- Reads the condition and the blocks of an `if`, at that word. Gives the span of all of it as well. -/
def conditional : Nat → Parser (Span × Expr × Block × Otherwise)
  | 0 => fail .nestedTooDeeply
  | fuel + 1 => do
    let reported ← span
    advance
    let cond ← condition "if"
    let body ← block fuel
    let orElse ← otherwise (conditional fuel) (block fuel)
    return (← cover reported reported.start, cond, body, orElse)

/-- Reads a statement. -/
def stmt : Nat → Parser Stmt
  | 0 => fail .nestedTooDeeply
  | fuel + 1 => do
    if ← atWord "let" then letStmt
    else if ← atWord "function" then functionStmt fuel (block fuel)
    else if ← atWord "if" then
      let (span, cond, body, otherwise) ← conditional fuel
      return .if_ span cond body otherwise
    else if ← atWord "while" then whileStmt (block fuel)
    else if ← atWord "return" then returnStmt
    else if ← atWord "break" then loopControl .break_
    else if ← atWord "continue" then loopControl .continue_
    else if ← atWord "else" then fail .orphanElse
    else if ← atSymbol "\x7b" then return .block (← block fuel)
    else if ← atSymbol "\x7d" then fail .unbalancedBrace
    else assignOrExpr

end

/-- Reads the import of the host, if there is one. -/
def hostImport : Parser (Option HostImport) := do
  if !(← atWord "use") then return none
  let reported ← span
  advance
  if !(← atWord "host") then fail .unknownImport
  advance
  expect "as" "after `use host`"
  let host ← ident
  expect ";" "after host import"
  return some ⟨← cover reported reported.start, host⟩

/-- Reads one statement. -/
def statement : Parser Stmt := do stmt (← fuel)

/-- Reads statements up to the end of the text. -/
def stmtsToEnd : Nat → List Stmt → Parser (List Stmt)
  | 0, _ => fail .nestedTooDeeply
  | fuel + 1, stmts => do
    if ← atEnd then return stmts.reverse
    let s ← stmt fuel
    stmtsToEnd fuel (s :: stmts)

/-- Reads a whole script. -/
def module : Parser Module := do
  let host ← hostImport
  let stmts ← stmtsToEnd (← fuel) []
  return ⟨host, stmts⟩

/-- Runs a reader on the tokens of a source, from the first one. -/
def run {α : Type} (parser : Parser α) (source : Source) : Except ParseFault (α × Cursor) := do
  let scan := source.scan
  let cursor : Cursor := ⟨scan.tokens, scan.ending, 0⟩
  checkEnding cursor
  parser cursor

end Parser

/-- Parses a source as a script. -/
def Module.ofSource (source : Source) : Except ParseFault Module := (Parser.module.run source).map (·.1)

end HostScript.Script
