import HostScript.Script.Parser

/-!
# The grammar of the host script

`Reads` and `ReadsStmt` say which rows of tokens begin with an expression or a statement, which tree it has, and what is left of the
row. They follow the grammar and know nothing of fuel, cursors or faults. The spans of names and literals are those of their tokens;
the spans of all other nodes are left open. `Expr.bare` and its companions take all spans out of a tree.
-/

namespace HostScript

/-- The span of what stands nowhere. -/
def Span.nowhere : Span := ⟨0, 0, 0, 0⟩

/-- The text by which a symbol or a word is known, empty for strings. -/
def Token.spelling (token : Token) : String := if (Token.delimiter? token.kind).isSome then "" else token.text

namespace Script

/-- The spelling of the first token of a row, empty if there is none. -/
def spelling (row : List Token) : String := (row.head?.map Token.spelling).getD ""

theorem spelling_cons (token : Token) (row : List Token) : spelling (token :: row) = token.spelling := rfl

/-- A symbol is spelled as it is. -/
theorem spelling_of_isSymbol {token : Token} {symbol : String} (h : token.isSymbol symbol) : token.spelling = symbol := by
  simp only [Token.isSymbol, Bool.and_eq_true, beq_iff_eq] at h
  simp [Token.spelling, Token.delimiter?, h]

/-- A word is spelled as it is. -/
theorem spelling_of_isIdent {token : Token} {word : String} (h : token.isIdent word) : token.spelling = word := by
  simp only [Token.isIdent, Bool.and_eq_true, beq_iff_eq] at h
  simp [Token.spelling, Token.delimiter?, h]

/-- A row begins with the given symbol. -/
def atSymbol (symbol : String) (row : List Token) : Bool := row.head?.any (·.isSymbol symbol)

/-- A row begins with the given word. -/
def atWord (word : String) (row : List Token) : Bool := row.head?.any (·.isIdent word)

/-- The name that a token is, unless it is a keyword. -/
def name? (token : Token) : Option Ident :=
  if token.kind = .ident ∧ ¬Parser.keywords.contains token.text then some ⟨token.span, token.text⟩ else none

/-- The literal, constant or variable that a token is. -/
def atom? (token : Token) : Option Expr :=
  match token.kind with
  | .number => (Number.ofText? token.text).map (.number token.span)
  | .string => (Json.unquote token.lexeme).toOption.map (.string token.span)
  | .rawString => some (.rawString token.span token.text)
  | .ident =>
    if token.text == "null" then some (.null token.span)
    else if token.text == "true" then some (.bool token.span true)
    else if token.text == "false" then some (.bool token.span false)
    else (name? token).map fun name => .var name.span name.name
  | .symbol => none

/-- The unary operator that a token is. -/
def unaryOp? (token : Token) : Option UnaryOp :=
  if token.isSymbol "-" then some .neg else if token.isSymbol "!" then some .not else none

/-- A row goes on with a member, an index or a call. -/
def atSuffix (row : List Token) : Bool := atSymbol "." row || atSymbol "[" row || atSymbol "(" row

/-! ## Expressions -/

/-- What a part of a row is read as. -/
inductive Phrase
  /-- Operands joined by operators of a level and of tighter ones. -/
  | level (level : Nat)
  /-- The operators of a level and their right operands, behind a left operand. -/
  | operators (level : Nat) (left : Expr)
  | unary
  | primary
  /-- What follows an item of an array, as the array of the other items. -/
  | items
  /-- What follows the opening brace or a comma of an object, as the object of the other fields. -/
  | fields
  | key
  /-- The members, indexes and calls behind an expression. -/
  | suffixes (base : Expr)
  /-- What follows an argument of a call, as the call with the other arguments. -/
  | args (callee : Expr)

/-- A row begins with a phrase of the given tree, and what is left of it. -/
inductive Reads : Phrase → List Token → Expr → List Token → Prop
  | level {level : Nat} {row between rest : List Token} {left e : Expr} (binds : level ≤ Parser.tightestLevel)
      (operand : Reads (.level (level + 1)) row left between) (more : Reads (.operators level left) between e rest) :
      Reads (.level level) row e rest
  | operand {level : Nat} {row rest : List Token} {e : Expr} (binds : Parser.tightestLevel < level)
      (operand : Reads .unary row e rest) : Reads (.level level) row e rest
  | operatorsDone {level : Nat} {row : List Token} {left : Expr} (ends : Parser.operator? level (spelling row) = none) :
      Reads (.operators level left) row left row
  | operatorsMore {level : Nat} {token : Token} {row between rest : List Token} {left right e : Expr} {op : BinaryOp} {span : Span}
      (operator : Parser.operator? level token.spelling = some op) (operand : Reads (.level (level + 1)) row right between)
      (more : Reads (.operators level (.binary span op left right)) between e rest) :
      Reads (.operators level left) (token :: row) e rest
  | prefixed {token : Token} {row rest : List Token} {e : Expr} {op : UnaryOp} {span : Span} (operator : unaryOp? token = some op)
      (operand : Reads .unary row e rest) : Reads .unary (token :: row) (.unary span op e) rest
  | suffixed {row between rest : List Token} {base e : Expr} (bare : row.head?.bind unaryOp? = none)
      (primary : Reads .primary row base between) (more : Reads (.suffixes base) between e rest) : Reads .unary row e rest
  | arrayEmpty {opening closing : Token} {rest : List Token} {span : Span} (opens : opening.isSymbol "[")
      (closes : closing.spelling = "]") : Reads .primary (opening :: closing :: rest) (.array span []) rest
  | array {opening : Token} {row between rest : List Token} {first : Expr} {items : List Expr} {span : Span}
      (opens : opening.isSymbol "[") (filled : spelling row ≠ "]") (item : Reads (.level 0) row first between)
      (more : Reads .items between (.array span items) rest) : Reads .primary (opening :: row) (.array span (first :: items)) rest
  | object {opening : Token} {row rest : List Token} {fields : List (Span × Expr × Expr)} {span : Span}
      (opens : opening.isSymbol "\x7b") (more : Reads .fields row (.object span fields) rest) :
      Reads .primary (opening :: row) (.object span fields) rest
  | bracketed {opening closing : Token} {row rest : List Token} {e : Expr} (opens : opening.isSymbol "(")
      (inner : Reads (.level 0) row e (closing :: rest)) (closes : closing.spelling = ")") : Reads .primary (opening :: row) e rest
  | atom {token : Token} {rest : List Token} {e : Expr} (atom : atom? token = some e) : Reads .primary (token :: rest) e rest
  | itemsDone {closing : Token} {rest : List Token} {span : Span} (closes : closing.spelling = "]") :
      Reads .items (closing :: rest) (.array span []) rest
  | itemsComma {comma closing : Token} {rest : List Token} {span : Span} (separates : comma.spelling = ",")
      (closes : closing.spelling = "]") : Reads .items (comma :: closing :: rest) (.array span []) rest
  | itemsMore {comma : Token} {row between rest : List Token} {item : Expr} {items : List Expr} {span : Span}
      (separates : comma.spelling = ",") (filled : spelling row ≠ "]") (first : Reads (.level 0) row item between)
      (more : Reads .items between (.array span items) rest) : Reads .items (comma :: row) (.array span (item :: items)) rest
  | fieldsDone {closing : Token} {rest : List Token} {span : Span} (closes : closing.spelling = "\x7d") :
      Reads .fields (closing :: rest) (.object span []) rest
  | fieldsLast {colon closing : Token} {row between rest : List Token} {key value : Expr} {span fieldSpan : Span}
      (filled : spelling row ≠ "\x7d") (named : Reads .key row key (colon :: between)) (separates : colon.spelling = ":")
      (valued : Reads (.level 0) between value (closing :: rest)) (closes : closing.spelling = "\x7d") :
      Reads .fields row (.object span [(fieldSpan, key, value)]) rest
  | fieldsMore {colon comma : Token} {row between after rest : List Token} {key value : Expr} {fields : List (Span × Expr × Expr)}
      {span fieldSpan : Span} (filled : spelling row ≠ "\x7d") (named : Reads .key row key (colon :: between))
      (separates : colon.spelling = ":") (valued : Reads (.level 0) between value (comma :: after)) (follows : comma.spelling = ",")
      (more : Reads .fields after (.object span fields) rest) : Reads .fields row (.object span ((fieldSpan, key, value) :: fields)) rest
  | keyName {token : Token} {rest : List Token} {name : Ident} (named : name? token = some name) :
      Reads .key (token :: rest) (.string name.span name.name) rest
  | keyExpr {row rest : List Token} {key : Expr} (computed : row.head?.bind name? = none) (expr : Reads (.level 0) row key rest) :
      Reads .key row key rest
  | suffixesDone {row : List Token} {base : Expr} (ends : ¬atSuffix row) : Reads (.suffixes base) row base row
  | member {dot token : Token} {row rest : List Token} {base e : Expr} {field : Ident} {span : Span} (opens : dot.isSymbol ".")
      (named : name? token = some field) (more : Reads (.suffixes (.member span base field)) row e rest) :
      Reads (.suffixes base) (dot :: token :: row) e rest
  | index {opening closing : Token} {row between rest : List Token} {base key e : Expr} {span : Span} (opens : opening.isSymbol "[")
      (inner : Reads (.level 0) row key (closing :: between)) (closes : closing.spelling = "]")
      (more : Reads (.suffixes (.index span base key)) between e rest) : Reads (.suffixes base) (opening :: row) e rest
  | callEmpty {opening closing : Token} {row rest : List Token} {base e : Expr} {span : Span} (opens : opening.isSymbol "(")
      (closes : closing.spelling = ")") (more : Reads (.suffixes (.call span base [])) row e rest) :
      Reads (.suffixes base) (opening :: closing :: row) e rest
  | call {opening : Token} {row between after rest : List Token} {base first e : Expr} {args : List Expr} {span : Span}
      (opens : opening.isSymbol "(") (filled : spelling row ≠ ")") (arg : Reads (.level 0) row first between)
      (others : Reads (.args base) between (.call span base args) after)
      (more : Reads (.suffixes (.call span base (first :: args))) after e rest) : Reads (.suffixes base) (opening :: row) e rest
  | argsDone {closing : Token} {rest : List Token} {callee : Expr} {span : Span} (closes : closing.spelling = ")") :
      Reads (.args callee) (closing :: rest) (.call span callee []) rest
  | argsMore {comma : Token} {row between rest : List Token} {callee arg : Expr} {args : List Expr} {span : Span}
      (separates : comma.spelling = ",") (first : Reads (.level 0) row arg between)
      (more : Reads (.args callee) between (.call span callee args) rest) :
      Reads (.args callee) (comma :: row) (.call span callee (arg :: args)) rest

/-! ## Statements -/

/-- The words and symbols with which a statement begins that is neither an assignment nor an expression. -/
def opensStatement (row : List Token) : Bool :=
  ["let", "function", "if", "while", "return", "break", "continue", "else"].any (atWord · row) ||
    atSymbol "\x7b" row || atSymbol "\x7d" row

/-- The parameters behind the first one of a function, up to the closing bracket. -/
inductive ReadsParams : List Token → List Ident → List Token → Prop
  | done {closing : Token} {rest : List Token} (closes : closing.spelling = ")") : ReadsParams (closing :: rest) [] rest
  | more {comma token : Token} {row rest : List Token} {param : Ident} {params : List Ident} (separates : comma.spelling = ",")
      (named : name? token = some param) (others : ReadsParams row params rest) :
      ReadsParams (comma :: token :: row) (param :: params) rest

/-- The parameters of a function, behind the opening bracket. -/
inductive ReadsParamList : List Token → List Ident → List Token → Prop
  | empty {closing : Token} {rest : List Token} (closes : closing.spelling = ")") : ReadsParamList (closing :: rest) [] rest
  | names {token : Token} {row rest : List Token} {param : Ident} {params : List Ident} (filled : token.spelling ≠ ")")
      (named : name? token = some param) (others : ReadsParams row params rest) :
      ReadsParamList (token :: row) (param :: params) rest

/-- A condition between brackets. -/
inductive ReadsCondition : List Token → Expr → List Token → Prop
  | mk {opening closing : Token} {row rest : List Token} {cond : Expr} (opens : opening.spelling = "(")
      (inner : Reads (.level 0) row cond (closing :: rest)) (closes : closing.spelling = ")") :
      ReadsCondition (opening :: row) cond rest

/-- What a part of a row is read as: one statement, or what follows the opening brace of a block, as the block. -/
inductive Passage
  | stmt
  | body

/-- A row begins with a statement or the rest of a block, and what is left of it. -/
inductive ReadsStmt : Passage → List Token → Stmt → List Token → Prop
  | let_ {word token equals closing : Token} {row rest : List Token} {name : Ident} {value : Expr} {span : Span}
      (begins : word.isIdent "let") (named : name? token = some name) (assigns : equals.spelling = "=")
      (valued : Reads (.level 0) row value (closing :: rest)) (closes : closing.spelling = ";") :
      ReadsStmt .stmt (word :: token :: equals :: row) (.let_ span name value) rest
  | function {word token opening brace : Token} {row between rest : List Token} {name : Ident} {params : List Ident} {body : Block}
      {span : Span} (begins : word.isIdent "function") (named : name? token = some name) (opens : opening.spelling = "(")
      (listed : ReadsParamList row params (brace :: between)) (braced : brace.spelling = "\x7b")
      (bodied : ReadsStmt .body between (.block body) rest) :
      ReadsStmt .stmt (word :: token :: opening :: row) (.function span name params body) rest
  | if_ {word brace : Token} {row between rest : List Token} {cond : Expr} {body : Block} {span : Span} (begins : word.isIdent "if")
      (asked : ReadsCondition row cond (brace :: between)) (braced : brace.spelling = "\x7b")
      (bodied : ReadsStmt .body between (.block body) rest) (ends : ¬atWord "else" rest) :
      ReadsStmt .stmt (word :: row) (.if_ span cond body .nothing) rest
  | ifElse {word orElse brace brace' : Token} {row between after rest : List Token} {cond : Expr} {body alternate : Block} {span : Span}
      (begins : word.isIdent "if") (asked : ReadsCondition row cond (brace :: between)) (braced : brace.spelling = "\x7b")
      (bodied : ReadsStmt .body between (.block body) (orElse :: brace' :: after)) (goesOn : orElse.isIdent "else")
      (ends : ¬brace'.isIdent "if") (braced' : brace'.spelling = "\x7b") (bodied' : ReadsStmt .body after (.block alternate) rest) :
      ReadsStmt .stmt (word :: row) (.if_ span cond body (.block alternate)) rest
  | ifElseIf {word orElse : Token} {row between after rest : List Token} {brace : Token} {cond cond' : Expr} {body body' : Block}
      {otherwise : Otherwise} {span span' : Span} (begins : word.isIdent "if") (asked : ReadsCondition row cond (brace :: between))
      (braced : brace.spelling = "\x7b") (bodied : ReadsStmt .body between (.block body) (orElse :: after))
      (goesOn : orElse.isIdent "else") (again : atWord "if" after)
      (alternate : ReadsStmt .stmt after (.if_ span' cond' body' otherwise) rest) :
      ReadsStmt .stmt (word :: row) (.if_ span cond body (.elseIf span' cond' body' otherwise)) rest
  | while_ {word brace : Token} {row between rest : List Token} {cond : Expr} {body : Block} {span : Span}
      (begins : word.isIdent "while") (asked : ReadsCondition row cond (brace :: between)) (braced : brace.spelling = "\x7b")
      (bodied : ReadsStmt .body between (.block body) rest) : ReadsStmt .stmt (word :: row) (.while_ span cond body) rest
  | returnNothing {word closing : Token} {rest : List Token} {span : Span} (begins : word.isIdent "return")
      (closes : closing.isSymbol ";") : ReadsStmt .stmt (word :: closing :: rest) (.return_ span none) rest
  | return_ {word closing : Token} {row rest : List Token} {value : Expr} {span : Span} (begins : word.isIdent "return")
      (valued : Reads (.level 0) row value (closing :: rest)) (closes : closing.spelling = ";") (filled : ¬atSymbol ";" row) :
      ReadsStmt .stmt (word :: row) (.return_ span (some value)) rest
  | break_ {word closing : Token} {rest : List Token} {span : Span} (begins : word.isIdent "break") (closes : closing.spelling = ";") :
      ReadsStmt .stmt (word :: closing :: rest) (.break_ span) rest
  | continue_ {word closing : Token} {rest : List Token} {span : Span} (begins : word.isIdent "continue")
      (closes : closing.spelling = ";") : ReadsStmt .stmt (word :: closing :: rest) (.continue_ span) rest
  | block {opening : Token} {row rest : List Token} {body : Block} (opens : opening.isSymbol "\x7b")
      (bodied : ReadsStmt .body row (.block body) rest) : ReadsStmt .stmt (opening :: row) (.block body) rest
  | assign {equals closing : Token} {row between rest : List Token} {target value : Expr} {span : Span} (plain : ¬opensStatement row)
      (targeted : Reads (.level 0) row target (equals :: between)) (assigns : equals.isSymbol "=") (assignable : target.isTarget)
      (valued : Reads (.level 0) between value (closing :: rest)) (closes : closing.spelling = ";") :
      ReadsStmt .stmt row (.assign span target value) rest
  | expr {closing : Token} {row rest : List Token} {e : Expr} {span : Span} (plain : ¬opensStatement row)
      (valued : Reads (.level 0) row e (closing :: rest)) (closes : closing.spelling = ";") : ReadsStmt .stmt row (.expr span e) rest
  | bodyDone {closing : Token} {rest : List Token} {span : Span} (closes : closing.isSymbol "\x7d") :
      ReadsStmt .body (closing :: rest) (.block (.mk span [])) rest
  | bodyMore {row between rest : List Token} {s : Stmt} {stmts : List Stmt} {span : Span} (filled : ¬atSymbol "\x7d" row)
      (first : ReadsStmt .stmt row s between) (more : ReadsStmt .body between (.block (.mk span stmts)) rest) :
      ReadsStmt .body row (.block (.mk span (s :: stmts))) rest

/-- A whole row is read as statements, one after the other. -/
inductive ReadsStmts : List Token → List Stmt → Prop
  | done : ReadsStmts [] []
  | more {row between : List Token} {s : Stmt} {stmts : List Stmt} (first : ReadsStmt .stmt row s between)
      (others : ReadsStmts between stmts) : ReadsStmts row (s :: stmts)

/-- A whole row is read as a script. -/
inductive ReadsModule : List Token → Module → Prop
  | plain {row : List Token} {stmts : List Stmt} (plain : ¬atWord "use" row) (body : ReadsStmts row stmts) :
      ReadsModule row ⟨none, stmts⟩
  | hosted {use host as_ token closing : Token} {row : List Token} {stmts : List Stmt} {name : Ident} {span : Span}
      (begins : use.isIdent "use") (imports : host.isIdent "host") (renames : as_.spelling = "as") (named : name? token = some name)
      (closes : closing.spelling = ";") (body : ReadsStmts row stmts) :
      ReadsModule (use :: host :: as_ :: token :: closing :: row) ⟨some ⟨span, name⟩, stmts⟩

/-! ## Trees without spans -/

/-- A name without its span. -/
def Ident.bare (name : Ident) : Ident := ⟨.nowhere, name.name⟩

mutual

/-- An expression without its spans. -/
def Expr.bare : Expr → Expr
  | .null _ => .null .nowhere
  | .bool _ value => .bool .nowhere value
  | .number _ value => .number .nowhere value
  | .string _ text => .string .nowhere text
  | .rawString _ text => .rawString .nowhere text
  | .var _ name => .var .nowhere name
  | .array _ items => .array .nowhere (Expr.bares items)
  | .object _ fields => .object .nowhere (Expr.bareFields fields)
  | .call _ callee args => .call .nowhere callee.bare (Expr.bares args)
  | .unary _ op operand => .unary .nowhere op operand.bare
  | .member _ base field => .member .nowhere base.bare field.bare
  | .index _ base key => .index .nowhere base.bare key.bare
  | .binary _ op left right => .binary .nowhere op left.bare right.bare

/-- Expressions without their spans. -/
def Expr.bares : List Expr → List Expr
  | [] => []
  | e :: rest => e.bare :: Expr.bares rest

/-- The fields of an object without their spans. -/
def Expr.bareFields : List (Span × Expr × Expr) → List (Span × Expr × Expr)
  | [] => []
  | (_, key, value) :: rest => (.nowhere, key.bare, value.bare) :: Expr.bareFields rest

end

mutual

/-- A statement without its spans. -/
def Stmt.bare : Stmt → Stmt
  | .let_ _ name value => .let_ .nowhere name.bare value.bare
  | .assign _ target value => .assign .nowhere target.bare value.bare
  | .function _ name params body => .function .nowhere name.bare (params.map Ident.bare) body.bare
  | .if_ _ cond body otherwise => .if_ .nowhere cond.bare body.bare otherwise.bare
  | .while_ _ cond body => .while_ .nowhere cond.bare body.bare
  | .return_ _ value => .return_ .nowhere (value.map Expr.bare)
  | .break_ _ => .break_ .nowhere
  | .continue_ _ => .continue_ .nowhere
  | .block body => .block body.bare
  | .expr _ e => .expr .nowhere e.bare

/-- A block without its spans. -/
def Block.bare : Block → Block
  | .mk _ stmts => .mk .nowhere (Stmt.bares stmts)

/-- What follows the block of an `if`, without its spans. -/
def Otherwise.bare : Otherwise → Otherwise
  | .nothing => .nothing
  | .block body => .block body.bare
  | .elseIf _ cond body otherwise => .elseIf .nowhere cond.bare body.bare otherwise.bare

/-- Statements without their spans. -/
def Stmt.bares : List Stmt → List Stmt
  | [] => []
  | s :: rest => s.bare :: Stmt.bares rest

end

/-- A script without its spans. -/
def Module.bare (m : Module) : Module := ⟨m.host.map fun h => ⟨.nowhere, h.host.bare⟩, Stmt.bares m.stmts⟩

/-! A tree without its spans has none to lose. -/

mutual

theorem Expr.bare_bare : (e : Expr) → e.bare.bare = e.bare
  | .null _ | .bool _ _ | .number _ _ | .string _ _ | .rawString _ _ | .var _ _ => rfl
  | .array _ items => by rw [Expr.bare, Expr.bare, Expr.bares_bares items]
  | .object _ fields => by rw [Expr.bare, Expr.bare, Expr.bareFields_bareFields fields]
  | .call _ callee args => by rw [Expr.bare, Expr.bare, callee.bare_bare, Expr.bares_bares args]
  | .unary _ op operand => by rw [Expr.bare, Expr.bare, operand.bare_bare]
  | .member _ base _ => by
    rw [Expr.bare, Expr.bare, base.bare_bare]
    rfl
  | .index _ base key => by rw [Expr.bare, Expr.bare, base.bare_bare, key.bare_bare]
  | .binary _ op left right => by rw [Expr.bare, Expr.bare, left.bare_bare, right.bare_bare]

theorem Expr.bares_bares : (items : List Expr) → Expr.bares (Expr.bares items) = Expr.bares items
  | [] => rfl
  | e :: items => by rw [Expr.bares, Expr.bares, e.bare_bare, Expr.bares_bares items]

theorem Expr.bareFields_bareFields : (fields : List (Span × Expr × Expr)) →
    Expr.bareFields (Expr.bareFields fields) = Expr.bareFields fields
  | [] => rfl
  | (_, key, value) :: fields => by
    rw [Expr.bareFields, Expr.bareFields, key.bare_bare, value.bare_bare, Expr.bareFields_bareFields fields]

end

mutual

theorem Stmt.bare_bare : (s : Stmt) → s.bare.bare = s.bare
  | .let_ _ _ value => by
    rw [Stmt.bare, Stmt.bare, value.bare_bare]
    rfl
  | .assign _ target value => by rw [Stmt.bare, Stmt.bare, target.bare_bare, value.bare_bare]
  | .function _ _ params body => by
    rw [Stmt.bare, Stmt.bare, body.bare_bare, List.map_map]
    rfl
  | .if_ _ cond body otherwise => by rw [Stmt.bare, Stmt.bare, cond.bare_bare, body.bare_bare, otherwise.bare_bare]
  | .while_ _ cond body => by rw [Stmt.bare, Stmt.bare, cond.bare_bare, body.bare_bare]
  | .return_ _ none => rfl
  | .return_ _ (some value) => by rw [Stmt.bare, Option.map_some, Stmt.bare, Option.map_some, value.bare_bare]
  | .break_ _ | .continue_ _ => rfl
  | .block body => by rw [Stmt.bare, Stmt.bare, body.bare_bare]
  | .expr _ e => by rw [Stmt.bare, Stmt.bare, e.bare_bare]

theorem Block.bare_bare : (body : Block) → body.bare.bare = body.bare
  | .mk _ stmts => by rw [Block.bare, Block.bare, Stmt.bares_bares stmts]

theorem Otherwise.bare_bare : (otherwise : Otherwise) → otherwise.bare.bare = otherwise.bare
  | .nothing => rfl
  | .block body => by rw [Otherwise.bare, Otherwise.bare, body.bare_bare]
  | .elseIf _ cond body otherwise => by
    rw [Otherwise.bare, Otherwise.bare, cond.bare_bare, body.bare_bare, otherwise.bare_bare]

theorem Stmt.bares_bares : (stmts : List Stmt) → Stmt.bares (Stmt.bares stmts) = Stmt.bares stmts
  | [] => rfl
  | s :: stmts => by rw [Stmt.bares, Stmt.bares, s.bare_bare, Stmt.bares_bares stmts]

end

theorem Module.bare_bare (m : Module) : m.bare.bare = m.bare := by
  obtain ⟨host, stmts⟩ := m
  rw [Module.bare, Module.bare, Stmt.bares_bares stmts]
  cases host <;> rfl

end Script

end HostScript
