import Mathlib
import HostScript.Script.Parser

/-!
# What holds of every reader of the grammar

The readers of the grammar are put together from three primitive ones, which look at the cursor, go on to the next token, or fail.
`Closed` says of a property of readers that the primitive ones have it and that sequencing keeps it; every reader of the grammar has
such a property, whatever its fuel, up to the reader of whole scripts (`Closed.module`).
-/

namespace HostScript.Script.Parser

/-- A property that the primitive readers have and that a sequence of readers inherits from them. -/
structure Closed (P : (α : Type) → Parser α → Prop) : Prop where
  pure {α : Type} (a : α) : P α (pure a)
  bind {α β : Type} {p : Parser α} {f : α → Parser β} (hp : P α p) (hf : ∀ a, P β (f a)) : P β (p >>= f)
  look {α : Type} (f : Cursor → α) : P α (do return f (← get))
  advance : P Unit advance
  failAt {α : Type} (place : Span) (problem : ParseProblem) : P α (failAt place problem)

namespace Closed

variable {P : (α : Type) → Parser α → Prop} {fuel : Nat}

/-! ## Tokens -/

/-- A look at the span of the current token has the property. -/
theorem span (h : Closed P) : P Span Parser.span := h.look currentSpan

/-- A look at the current token has the property. -/
theorem token? (h : Closed P) : P (Option Token) Parser.token? := h.look fun cursor => cursor.rest.head?

/-- So has the making of a span, -/
theorem cover (h : Closed P) (reported : Span) (start : Nat) : P Span (Parser.cover reported start) :=
  h.look fun cursor => { reported with start := start, stop := cursor.stop }

/-- a look at the fuel, -/
theorem fuel_ (h : Closed P) : P Nat Parser.fuel := h.look fun cursor => 16 * (cursor.rest.length + 1)

/-- the reading of a text, -/
theorem text (h : Closed P) : P String Parser.text := by
  refine h.bind h.token? fun token => ?_
  cases token with
  | none => exact h.pure _
  | some token => exact h.pure _

/-- Looking whether the text is at its end is made from looking at the current token. -/
theorem atEnd (h : Closed P) : P Bool Parser.atEnd := h.bind h.token? fun _ => h.pure _

/-- a look for a symbol -/
theorem atSymbol (h : Closed P) (symbol : String) : P Bool (Parser.atSymbol symbol) := h.bind h.token? fun _ => h.pure _

/-- and one for a word. -/
theorem atWord (h : Closed P) (word : String) : P Bool (Parser.atWord word) := h.bind h.token? fun _ => h.pure _

/-- A failure at the current token has the property. -/
theorem fail {α : Type} (h : Closed P) (problem : ParseProblem) : P α (Parser.fail problem) :=
  h.bind h.span fun place => h.failAt place problem

/-- A reader that goes one of two ways. -/
theorem ite {α : Type} {c : Prop} [Decidable c] {p q : Parser α} (hp : P α p) (hq : P α q) : P α (if c then p else q) := by
  split
  · exact hp
  · exact hq

/-- Asking for a symbol or a word is made from looking at its spelling, passing it and failing. -/
theorem expect (h : Closed P) (expected context : String) : P Unit (Parser.expect expected context) :=
  h.bind h.text fun _ => ite h.advance (h.fail _)

/-- A name is read by looking at the current token and passing it. -/
theorem ident (h : Closed P) : P Ident Parser.ident := by
  refine h.bind h.token? fun token => ?_
  split
  · exact ite (h.fail _) (h.bind h.advance fun _ => h.pure _)
  · exact h.fail _

/-- A literal is read by going on to the next token. -/
theorem literal (h : Closed P) (e : Expr) : P Expr (do Parser.advance; return e) := h.bind h.advance fun _ => h.pure e

/-- An atom is read as a literal or as a name. -/
theorem atom (h : Closed P) : P Expr Parser.atom := by
  refine h.bind h.token? fun token => ?_
  cases token with
  | none => exact h.fail _
  | some token =>
    dsimp only
    split
    · split
      · exact h.literal _
      · exact h.failAt _ _
    · split
      · exact h.literal _
      · exact h.failAt _ _
    · exact h.literal _
    · exact ite (h.literal _) (ite (h.literal _) (ite (h.literal _) (h.bind h.ident fun _ => h.pure _)))
    · exact h.fail _

/-- A list in front of a closing symbol is made from the readers of its first part and of the others. -/
theorem upTo {α : Type} (h : Closed P) (closing : String) {first : Parser α} {more : List α → Parser (List α)} (hfirst : P α first)
    (hmore : ∀ parts, P (List α) (more parts)) : P (List α) (Parser.upTo closing first more) :=
  h.bind h.text fun _ => ite (h.pure _) (h.bind hfirst fun _ => hmore _)

/-- A unary operator is passed in front of the reader of its operand. -/
theorem applied (h : Closed P) (op : UnaryOp) {operand : Parser Expr} (hoperand : P Expr operand) : P Expr (Parser.applied op operand) :=
  h.bind h.span fun _ => h.bind h.advance fun _ => h.bind hoperand fun _ => h.bind (h.cover _ _) fun _ => h.pure _

/-- A key is a name that is passed or what the reader of expressions gives. -/
theorem fieldKey (h : Closed P) {computed : Parser Expr} (hcomputed : P Expr computed) : P Expr (Parser.fieldKey computed) := by
  refine h.bind h.token? fun token => ?_
  split
  · exact ite hcomputed (h.bind h.advance fun _ => h.pure _)
  · exact hcomputed

/-- What stands behind a key is made from the readers of expressions and of further fields. -/
theorem fieldsBehind (h : Closed P) {expr : Parser Expr} {more : List (Span × Expr × Expr) → Parser (List (Span × Expr × Expr))}
    (hexpr : P Expr expr) (hmore : ∀ fields, P (List (Span × Expr × Expr)) (more fields)) (reported : Span) (key : Expr)
    (fields : List (Span × Expr × Expr)) : P (List (Span × Expr × Expr)) (Parser.fieldsBehind expr more reported key fields) :=
  h.bind (h.expect _ _) fun _ => h.bind hexpr fun _ => h.bind (h.cover _ _) fun _ => h.bind h.text fun _ =>
    ite (h.bind h.advance fun _ => hmore _) (h.pure _)

end Closed

/-! ## Expressions -/

/-- A property holds of the readers of expressions with the given fuel. -/
structure OfExpressions (P : (α : Type) → Parser α → Prop) (fuel : Nat) : Prop where
  binary (level : Nat) : P Expr (binary fuel level)
  operators (level start : Nat) (left : Expr) : P Expr (operators fuel level start left)
  unary : P Expr (unary fuel)
  primary : P Expr (primary fuel)
  moreItems (items : List Expr) : P (List Expr) (moreItems fuel items)
  moreFields (fields : List (Span × Expr × Expr)) : P (List (Span × Expr × Expr)) (moreFields fuel fields)
  suffixes (start : Nat) (base : Expr) : P Expr (suffixes fuel start base)
  moreArgs (args : List Expr) : P (List Expr) (moreArgs fuel args)

namespace Closed

variable {P : (α : Type) → Parser α → Prop} {fuel : Nat}

/-- The readers of a level: an operand of the next level and the operators behind it. -/
theorem binary (h : Closed P) (ih : OfExpressions P fuel) (level : Nat) : P Expr (Parser.binary (fuel + 1) level) := by
  rw [Parser.binary]
  exact ite ih.unary (h.bind h.span fun _ => h.bind (ih.binary _) fun left => ih.operators _ _ left)

/-- The operators of a level are passed in front of the reader of operands. -/
theorem operators (h : Closed P) (ih : OfExpressions P fuel) (level start : Nat) (left : Expr) :
    P Expr (Parser.operators (fuel + 1) level start left) := by
  rw [Parser.operators]
  refine h.bind h.text fun symbol => ?_
  split
  · exact h.pure _
  · exact h.bind h.span fun _ => h.bind h.advance fun _ => h.bind (ih.binary _) fun _ => h.bind (h.cover _ _) fun _ =>
      ih.operators _ _ _

/-- Unary operators stand in front of what the reader of primary expressions gives. -/
theorem unary (h : Closed P) (ih : OfExpressions P fuel) : P Expr (Parser.unary (fuel + 1)) := by
  rw [Parser.unary]
  refine h.bind h.span fun reported => h.bind (h.atSymbol _) fun minus => ite (h.applied .neg ih.unary) ?_
  refine h.bind (h.atSymbol _) fun bang => ite (h.applied .not ih.unary) ?_
  exact h.bind ih.primary fun base => ih.suffixes _ base

/-- The four ways to read a primary expression. -/
theorem primary (h : Closed P) (ih : OfExpressions P fuel) : P Expr (Parser.primary (fuel + 1)) := by
  rw [Parser.primary]
  refine h.bind h.span fun reported => h.bind (h.atSymbol _) fun bracket => ite ?array ?rest
  case array =>
    refine h.bind h.advance fun _ => h.bind (h.upTo "]" (ih.binary _) ih.moreItems) fun items => ?_
    exact h.bind (h.expect _ _) fun _ => h.bind (h.cover _ _) fun _ => h.pure _
  case rest =>
    refine h.bind (h.atSymbol _) fun brace => ite ?_ (h.bind (h.atSymbol _) fun paren => ite ?_ h.atom)
    · refine h.bind h.advance fun _ => h.bind (ih.moreFields _) fun fields => ?_
      exact h.bind (h.expect _ _) fun _ => h.bind (h.cover _ _) fun _ => h.pure _
    · exact h.bind h.advance fun _ => h.bind (ih.binary _) fun inner => h.bind (h.expect _ _) fun _ => h.pure _

/-- The items behind a comma. -/
theorem moreItems (h : Closed P) (ih : OfExpressions P fuel) (items : List Expr) :
    P (List Expr) (Parser.moreItems (fuel + 1) items) := by
  rw [Parser.moreItems]
  refine h.bind h.text fun comma => ite (h.pure _) ?_
  refine h.bind h.advance fun _ => h.bind h.text fun next => h.bind h.atEnd fun atEnd => ite (h.pure _) ?_
  exact h.bind (ih.binary _) fun item => ih.moreItems _

/-- A field, by its key and by what stands behind the key. -/
theorem moreFields (h : Closed P) (ih : OfExpressions P fuel) (fields : List (Span × Expr × Expr)) :
    P (List (Span × Expr × Expr)) (Parser.moreFields (fuel + 1) fields) := by
  rw [Parser.moreFields]
  refine h.bind h.text fun brace => h.bind h.atEnd fun atEnd => ite (h.pure _) ?_
  exact h.bind h.span fun reported => h.bind (h.fieldKey (ih.binary _)) fun key =>
    h.fieldsBehind (ih.binary _) ih.moreFields reported key fields

/-- The three suffixes of an expression, each with what stands behind it. -/
theorem suffixes (h : Closed P) (ih : OfExpressions P fuel) (start : Nat) (base : Expr) :
    P Expr (Parser.suffixes (fuel + 1) start base) := by
  rw [Parser.suffixes]
  refine h.bind h.span fun reported => h.bind (h.atSymbol _) fun dot => ite ?_ ?_
  · exact h.bind h.advance fun _ => h.bind h.ident fun field => h.bind (h.cover _ _) fun _ => ih.suffixes _ _
  refine h.bind (h.atSymbol _) fun bracket => ite ?_ ?_
  · exact h.bind h.advance fun _ => h.bind (ih.binary _) fun key => h.bind (h.expect _ _) fun _ => h.bind (h.cover _ _) fun _ =>
      ih.suffixes _ _
  refine h.bind (h.atSymbol _) fun paren => ite ?_ (h.pure _)
  exact h.bind h.advance fun _ => h.bind (h.upTo ")" (ih.binary _) ih.moreArgs) fun args => h.bind (h.expect _ _) fun _ =>
    h.bind (h.cover _ _) fun _ => ih.suffixes _ _

/-- The arguments behind a comma. -/
theorem moreArgs (h : Closed P) (ih : OfExpressions P fuel) (args : List Expr) :
    P (List Expr) (Parser.moreArgs (fuel + 1) args) := by
  rw [Parser.moreArgs]
  refine h.bind h.text fun comma => ite (h.pure _) ?_
  exact h.bind h.advance fun _ => h.bind (ih.binary _) fun arg => ih.moreArgs _

/-- Without fuel every reader of expressions fails. -/
theorem expressions_zero (h : Closed P) : OfExpressions P 0 where
  binary _ := by unfold Parser.binary; exact h.fail _
  operators _ _ _ := by unfold Parser.operators; exact h.fail _
  unary := by unfold Parser.unary; exact h.fail _
  primary := by unfold Parser.primary; exact h.fail _
  moreItems _ := by unfold Parser.moreItems; exact h.fail _
  moreFields _ := by unfold Parser.moreFields; exact h.fail _
  suffixes _ _ := by unfold Parser.suffixes; exact h.fail _
  moreArgs _ := by unfold Parser.moreArgs; exact h.fail _

/-- A closed property holds of the readers of expressions, whatever their fuel. -/
theorem expressions (h : Closed P) (fuel : Nat) : OfExpressions P fuel := by
  induction fuel with
  | zero => exact h.expressions_zero
  | succ fuel ih =>
    exact ⟨h.binary ih, h.operators ih, h.unary ih, h.primary ih, h.moreItems ih, h.moreFields ih, h.suffixes ih, h.moreArgs ih⟩

/-! ## Statements -/

/-- An expression is read with the fuel for the tokens that are left. -/
theorem expr (h : Closed P) : P Expr Parser.expr := h.bind h.fuel_ fun fuel => (h.expressions fuel).binary 0

/-- The parameters behind a comma, by induction on the fuel. -/
theorem moreParams (h : Closed P) (fuel : Nat) (params : List Ident) : P (List Ident) (Parser.moreParams fuel params) := by
  induction fuel generalizing params with
  | zero => exact h.fail _
  | succ fuel ih => exact h.bind h.text fun comma => ite (h.pure _) (h.bind h.advance fun _ => h.bind h.ident fun param => ih _)

/-- The reader of a declaration has the property. -/
theorem letStmt (h : Closed P) : P Stmt Parser.letStmt :=
  h.bind h.span fun _ => h.bind h.advance fun _ => h.bind h.ident fun _ => h.bind (h.expect _ _) fun _ => h.bind h.expr fun _ =>
    h.bind (h.expect _ _) fun _ => h.bind (h.cover _ _) fun _ => h.pure _

/-- The reader of a `return` has the property. -/
theorem returnStmt (h : Closed P) : P Stmt Parser.returnStmt := by
  have closing : ∀ (reported : Span) value, P Stmt (do
      Parser.expect ";" "after return"
      return .return_ (← Parser.cover reported reported.start) value) := fun reported value =>
    h.bind (h.expect _ _) fun _ => h.bind (h.cover _ _) fun _ => h.pure _
  refine h.bind h.span fun reported => h.bind h.advance fun _ => h.bind (h.atSymbol _) fun bare => ?_
  dsimp only
  exact ite (h.bind (h.pure _) (closing reported)) (h.bind h.expr fun value => h.bind (h.pure _) (closing reported))

/-- The readers of `break` and `continue` have the property. -/
theorem loopControl (h : Closed P) (make : Span → Stmt) : P Stmt (Parser.loopControl make) :=
  h.bind h.span fun _ => h.bind h.advance fun _ => h.bind (h.expect _ _) fun _ => h.bind (h.cover _ _) fun _ => h.pure _

/-- An assignment and an expression that stands as a statement. -/
theorem assignOrExpr (h : Closed P) : P Stmt Parser.assignOrExpr := by
  refine h.bind h.span fun reported => h.bind h.expr fun target => h.bind (h.atSymbol _) fun equals => ite ?_ ?_
  · have assigned : P Stmt (do
        Parser.advance
        let value ← Parser.expr
        Parser.expect ";" "after assignment"
        return .assign (← Parser.cover reported reported.start) target value) :=
      h.bind h.advance fun _ => h.bind h.expr fun value => h.bind (h.expect _ _) fun _ => h.bind (h.cover _ _) fun _ => h.pure _
    exact ite (h.bind (h.failAt _ _) fun _ => assigned) assigned
  · exact h.bind (h.expect _ _) fun _ => h.bind (h.cover _ _) fun _ => h.pure _

/-- The reader of a condition has the property. -/
theorem condition (h : Closed P) (word : String) : P Expr (Parser.condition word) :=
  h.bind (h.expect _ _) fun _ => h.bind h.expr fun _ => h.bind (h.expect _ _) fun _ => h.pure _

/-- A function is read with the given reader of its body. -/
theorem functionStmt (h : Closed P) (fuel : Nat) {block : Parser Block} (hblock : P Block block) :
    P Stmt (Parser.functionStmt fuel block) :=
  h.bind h.span fun _ => h.bind h.advance fun _ => h.bind h.ident fun _ => h.bind (h.expect _ _) fun _ =>
    h.bind (h.upTo ")" h.ident (h.moreParams fuel)) fun _ => h.bind (h.expect _ _) fun _ => h.bind hblock fun _ =>
      h.bind (h.cover _ _) fun _ => h.pure _

/-- A loop is read with the given reader of its body. -/
theorem whileStmt (h : Closed P) {block : Parser Block} (hblock : P Block block) : P Stmt (Parser.whileStmt block) :=
  h.bind h.span fun _ => h.bind h.advance fun _ => h.bind (h.condition _) fun _ => h.bind hblock fun _ => h.bind (h.cover _ _) fun _ =>
    h.pure _

/-- What stands behind the block of an `if` is read with the given readers of another `if` and of a block. -/
theorem otherwise (h : Closed P) {again : Parser (Span × Expr × Block × Otherwise)} {block : Parser Block}
    (hagain : P (Span × Expr × Block × Otherwise) again) (hblock : P Block block) : P Otherwise (Parser.otherwise again block) :=
  h.bind (h.atWord _) fun _ => ite
    (h.bind h.advance fun _ => h.bind (h.atWord _) fun _ => ite (h.bind hagain fun _ => h.pure _) (h.bind hblock fun _ => h.pure _))
    (h.pure _)

end Closed

/-- A property holds of the readers of blocks and statements with the given fuel. -/
structure OfStatements (P : (α : Type) → Parser α → Prop) (fuel : Nat) : Prop where
  block : P Block (block fuel)
  blockStmts (opening : Span) (stmts : List Stmt) : P (List Stmt) (blockStmts fuel opening stmts)
  conditional : P (Span × Expr × Block × Otherwise) (conditional fuel)
  stmt : P Stmt (stmt fuel)

namespace Closed

variable {P : (α : Type) → Parser α → Prop} {fuel : Nat}

/-- The reader of a block has the property if the readers of its statements do. -/
theorem block (h : Closed P) (ih : OfStatements P fuel) : P Block (Parser.block (fuel + 1)) :=
  h.bind h.span fun _ => h.bind (h.expect _ _) fun _ => h.bind (ih.blockStmts _ _) fun _ => h.bind (h.cover _ _) fun _ => h.pure _

/-- The statements of a block up to its closing brace. -/
theorem blockStmts (h : Closed P) (ih : OfStatements P fuel) (opening : Span) (stmts : List Stmt) :
    P (List Stmt) (Parser.blockStmts (fuel + 1) opening stmts) := by
  refine h.bind (h.atSymbol _) fun brace => ite (h.bind h.advance fun _ => h.pure _) ?_
  exact h.bind h.atEnd fun atEnd => ite (h.failAt _ _) (h.bind ih.stmt fun s => ih.blockStmts _ _)

/-- An `if` with its condition, its block and what stands behind it. -/
theorem conditional (h : Closed P) (ih : OfStatements P fuel) :
    P (Span × Expr × Block × Otherwise) (Parser.conditional (fuel + 1)) :=
  h.bind h.span fun _ => h.bind h.advance fun _ => h.bind (h.condition _) fun _ => h.bind ih.block fun _ =>
    h.bind (h.otherwise ih.conditional ih.block) fun _ => h.bind (h.cover _ _) fun _ => h.pure _

/-- A statement is read by the word or the symbol with which it begins. -/
theorem stmt (h : Closed P) (ih : OfStatements P fuel) : P Stmt (Parser.stmt (fuel + 1)) := by
  refine h.bind (h.atWord _) fun _ => ite h.letStmt ?_
  refine h.bind (h.atWord _) fun _ => ite (h.functionStmt fuel ih.block) ?_
  refine h.bind (h.atWord _) fun _ => ite (h.bind ih.conditional fun _ => h.pure _) ?_
  refine h.bind (h.atWord _) fun _ => ite (h.whileStmt ih.block) ?_
  refine h.bind (h.atWord _) fun _ => ite h.returnStmt ?_
  refine h.bind (h.atWord _) fun _ => ite (h.loopControl _) ?_
  refine h.bind (h.atWord _) fun _ => ite (h.loopControl _) ?_
  refine h.bind (h.atWord _) fun _ => ite (h.fail _) ?_
  refine h.bind (h.atSymbol _) fun _ => ite (h.bind ih.block fun _ => h.pure _) ?_
  exact h.bind (h.atSymbol _) fun _ => ite (h.fail _) h.assignOrExpr

/-- A closed property holds of the readers of statements, whatever their fuel. -/
theorem statements (h : Closed P) (fuel : Nat) : OfStatements P fuel := by
  induction fuel with
  | zero => exact ⟨h.fail _, fun _ _ => h.fail _, h.fail _, h.fail _⟩
  | succ fuel ih => exact ⟨h.block ih, h.blockStmts ih, h.conditional ih, h.stmt ih⟩

/-! ## Scripts -/

/-- The reader of the import of the host has the property. -/
theorem hostImport (h : Closed P) : P (Option HostImport) Parser.hostImport := by
  refine h.bind (h.atWord _) fun imports => ite (h.pure _) ?_
  refine h.bind h.span fun reported => h.bind h.advance fun _ => h.bind (h.atWord _) fun known => ?_
  have named : P (Option HostImport) (do
      Parser.advance
      Parser.expect "as" "after `use host`"
      let host ← Parser.ident
      Parser.expect ";" "after host import"
      return some ⟨← Parser.cover reported reported.start, host⟩) :=
    h.bind h.advance fun _ => h.bind (h.expect _ _) fun _ => h.bind h.ident fun _ => h.bind (h.expect _ _) fun _ =>
      h.bind (h.cover _ _) fun _ => h.pure _
  exact ite (h.bind (h.fail _) fun _ => named) named

/-- The statements up to the end of the text, by induction on the fuel. -/
theorem stmtsToEnd (h : Closed P) (fuel : Nat) (stmts : List Stmt) : P (List Stmt) (Parser.stmtsToEnd fuel stmts) := by
  induction fuel generalizing stmts with
  | zero => exact h.fail _
  | succ fuel ih =>
    exact h.bind h.atEnd fun atEnd => ite (h.pure _) (h.bind (h.statements fuel).stmt fun s => ih _)

/-- A closed property holds of the reader of whole scripts. -/
theorem module (h : Closed P) : P Module Parser.module :=
  h.bind h.hostImport fun _ => h.bind h.fuel_ fun _ => h.bind (h.stmtsToEnd _ _) fun _ => h.pure _

end Closed

end HostScript.Script.Parser
