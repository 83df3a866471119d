import Mathlib
import HostScript.Proofs.Dialect.Lines
import HostScript.Proofs.Json.Quoted
import HostScript.Proofs.Script.Grammar

/-!
# Printing trees

How the tree of a script is printed as a row of tokens. Brackets stand only where the precedence of an operator or its associativity
asks for them, around an expression that would be taken for a block, and around a key that would be taken for a name. `Printable` says
which trees can be printed: their names are no keywords, their raw strings have no backtick, and their numbers can be written.
-/

namespace HostScript.Script

open Dialect (Shape Row)
open Lexer (IsLexeme)

/-! ## Expressions -/

/-- The level of precedence of a binary operator, the loosest being zero. -/
def BinaryOp.level : BinaryOp → Nat
  | .logic .or => 0
  | .logic .and => 1
  | .compare .eq | .compare .ne => 2
  | .compare _ => 3
  | .arith .add | .arith .sub => 4
  | .arith _ => 5

/-- The symbol of a binary operator. -/
def BinaryOp.symbol : BinaryOp → String
  | .logic .or => "||"
  | .logic .and => "&&"
  | .compare .eq => "=="
  | .compare .ne => "!="
  | .compare .lt => "<"
  | .compare .le => "<="
  | .compare .gt => ">"
  | .compare .ge => ">="
  | .arith .add => "+"
  | .arith .sub => "-"
  | .arith .mul => "*"
  | .arith .div => "/"
  | .arith .mod => "%"

/-- The symbol of a unary operator. -/
def UnaryOp.symbol : UnaryOp → String
  | .neg => "-"
  | .not => "!"

/-- The level of expressions with a unary operator in front. -/
def unaryLevel : Nat := 6

/-- The level of expressions that need no brackets anywhere. -/
def postfixLevel : Nat := 7

/-- The level of precedence of an expression. -/
def Expr.level : Expr → Nat
  | .binary _ op _ _ => op.level
  | .unary _ _ _ => unaryLevel
  | _ => postfixLevel

/-- A row in brackets. -/
def inBrackets (row : Row) : Row := .symbol "(" :: row ++ [.symbol ")"]

/-- The row of an expression where one of the given level is expected. -/
def guarded (level : Nat) (e : Expr) (row : Row) : Row := if e.level < level then inBrackets row else row

/-- The constants that are no names. -/
def constants : List String := ["true", "false", "null"]

/-- A row begins like a key that is a name. -/
def beginsWithName (row : Row) : Bool := row.head?.any fun s => s.kind == .ident && !constants.contains s.text

/-- The row of a key. -/
def keyRow (row : Row) : Row := if beginsWithName row then inBrackets row else row

variable (numeral : Number → String)

mutual

/-- The row of an expression. Numbers are written by `numeral`. -/
def Expr.row : Expr → Row
  | .null _ => [.word "null"]
  | .bool _ true => [.word "true"]
  | .bool _ false => [.word "false"]
  | .number _ n => [⟨.number, numeral n⟩]
  | .string _ text => [⟨.string, String.ofList (Json.quotedBody text)⟩]
  | .rawString _ text => [⟨.rawString, text⟩]
  | .var _ name => [.word name]
  | .array _ items => .symbol "[" :: (Expr.rows items).tail ++ [.symbol "]"]
  | .object _ fields => .symbol "\x7b" :: (Expr.fieldRows fields).tail ++ [.symbol "\x7d"]
  | .call _ callee args =>
    guarded postfixLevel callee callee.row ++ (.symbol "(" :: (Expr.rows args).tail ++ [.symbol ")"])
  | .unary _ op operand => .symbol op.symbol :: guarded unaryLevel operand operand.row
  | .member _ base field => guarded postfixLevel base base.row ++ [.symbol ".", .word field.name]
  | .index _ base key => guarded postfixLevel base base.row ++ (.symbol "[" :: key.row ++ [.symbol "]"])
  | .binary _ op left right =>
    guarded op.level left left.row ++ (.symbol op.symbol :: guarded (op.level + 1) right right.row)

/-- The rows of expressions, with a comma in front of each. -/
def Expr.rows : List Expr → Row
  | [] => []
  | e :: rest => .symbol "," :: e.row ++ Expr.rows rest

/-- The rows of the fields of an object, with a comma in front of each. -/
def Expr.fieldRows : List (Span × Expr × Expr) → Row
  | [] => []
  | (_, key, value) :: rest => .symbol "," :: keyRow key.row ++ (.symbol ":" :: value.row ++ Expr.fieldRows rest)

end

/-! ## Statements -/

/-- The row of an expression at the beginning of a statement. -/
def shielded (row : Row) : Row := if row.head? = some (.symbol "\x7b") then inBrackets row else row

/-- The rows of names, with a comma in front of each. -/
def nameRows : List Ident → Row
  | [] => []
  | name :: rest => .symbol "," :: .word name.name :: nameRows rest

mutual

/-- The row of a statement. -/
def Stmt.row : Stmt → Row
  | .let_ _ name value => .word "let" :: .word name.name :: .symbol "=" :: value.row numeral ++ [.symbol ";"]
  | .assign _ target value => shielded (target.row numeral) ++ (.symbol "=" :: value.row numeral ++ [.symbol ";"])
  | .function _ name params body =>
    .word "function" :: .word name.name :: .symbol "(" :: (nameRows params).tail ++ (.symbol ")" :: body.row)
  | .if_ _ cond body otherwise => .word "if" :: inBrackets (cond.row numeral) ++ (body.row ++ otherwise.row)
  | .while_ _ cond body => .word "while" :: inBrackets (cond.row numeral) ++ body.row
  | .return_ _ none => [.word "return", .symbol ";"]
  | .return_ _ (some value) => .word "return" :: value.row numeral ++ [.symbol ";"]
  | .break_ _ => [.word "break", .symbol ";"]
  | .continue_ _ => [.word "continue", .symbol ";"]
  | .block body => body.row
  | .expr _ e => shielded (e.row numeral) ++ [.symbol ";"]

/-- The row of a block. -/
def Block.row : Block → Row
  | .mk _ stmts => .symbol "\x7b" :: Stmt.rows stmts ++ [.symbol "\x7d"]

/-- The row of what follows the block of an `if`. -/
def Otherwise.row : Otherwise → Row
  | .nothing => []
  | .block body => .word "else" :: body.row
  | .elseIf _ cond body otherwise =>
    .word "else" :: .word "if" :: inBrackets (cond.row numeral) ++ (body.row ++ otherwise.row)

/-- The rows of statements, one behind the other. -/
def Stmt.rows : List Stmt → Row
  | [] => []
  | s :: rest => s.row ++ Stmt.rows rest

end

/-- The row of a script. -/
def Module.row (m : Module) : Row :=
  (match m.host with
    | none => []
    | some h => [.word "use", .word "host", .word "as", .word h.host.name, .symbol ";"]) ++ Stmt.rows numeral m.stmts

/-! ## Trees that can be printed -/

/-- A name that is no keyword. -/
def IsName (name : String) : Prop := IsLexeme .ident name.toList ∧ name ∉ Parser.keywords

/-- A way of writing numbers as tokens that are read back. -/
def Writes (literal : Number → Prop) : Prop :=
  ∀ n, literal n → IsLexeme .number (numeral n).toList ∧ Number.ofText? (numeral n) = some n

variable (literal : Number → Prop)

mutual

/-- An expression whose names are no keywords, whose raw strings have no backtick and whose numbers are literals. -/
def Expr.Printable : Expr → Prop
  | .null _ | .bool _ _ | .string _ _ => True
  | .number _ n => literal n
  | .rawString _ text => '\x60' ∉ text.toList
  | .var _ name => IsName name
  | .array _ items => Expr.AllPrintable items
  | .object _ fields => Expr.FieldsPrintable fields
  | .call _ callee args => callee.Printable ∧ Expr.AllPrintable args
  | .unary _ _ operand => operand.Printable
  | .member _ base field => base.Printable ∧ IsName field.name
  | .index _ base key => base.Printable ∧ key.Printable
  | .binary _ _ left right => left.Printable ∧ right.Printable

/-- Expressions that can be printed. -/
def Expr.AllPrintable : List Expr → Prop
  | [] => True
  | e :: rest => e.Printable ∧ Expr.AllPrintable rest

/-- Fields of an object that can be printed. -/
def Expr.FieldsPrintable : List (Span × Expr × Expr) → Prop
  | [] => True
  | (_, key, value) :: rest => key.Printable ∧ value.Printable ∧ Expr.FieldsPrintable rest

end

mutual

/-- A statement that can be printed: what it assigns to is a variable, a member or an index. -/
def Stmt.Printable : Stmt → Prop
  | .let_ _ name value => IsName name.name ∧ value.Printable literal
  | .assign _ target value => target.isTarget ∧ target.Printable literal ∧ value.Printable literal
  | .function _ name params body => IsName name.name ∧ (∀ param ∈ params, IsName param.name) ∧ body.Printable
  | .if_ _ cond body otherwise => cond.Printable literal ∧ body.Printable ∧ otherwise.Printable
  | .while_ _ cond body => cond.Printable literal ∧ body.Printable
  | .return_ _ value => ∀ e ∈ value, e.Printable literal
  | .break_ _ | .continue_ _ => True
  | .block body => body.Printable
  | .expr _ e => e.Printable literal

/-- A block that can be printed. -/
def Block.Printable : Block → Prop
  | .mk _ stmts => Stmt.AllPrintable stmts

/-- What follows the block of an `if`, if it can be printed. -/
def Otherwise.Printable : Otherwise → Prop
  | .nothing => True
  | .block body => body.Printable
  | .elseIf _ cond body otherwise => cond.Printable literal ∧ body.Printable ∧ otherwise.Printable

/-- Statements that can be printed. -/
def Stmt.AllPrintable : List Stmt → Prop
  | [] => True
  | s :: rest => s.Printable ∧ Stmt.AllPrintable rest

end

/-- A script that can be printed. -/
def Module.Printable (m : Module) : Prop := (∀ h ∈ m.host, IsName h.host.name) ∧ Stmt.AllPrintable literal m.stmts

end HostScript.Script
