import HostScript.Source
import HostScript.Value.Basic

/-!
# The host script

The tree of a parsed script. Every node carries the span at which it is reported. The line and column of an operation, a call, a
member or an index are those of its operator, while its offsets cover all of it.
-/

namespace HostScript.Script

/-- Arithmetic operators. -/
inductive ArithOp
  | add
  | sub
  | mul
  | div
  | mod
  deriving DecidableEq, Repr

/-- Comparisons. -/
inductive CompareOp
  | lt
  | le
  | eq
  | ge
  | gt
  | ne
  deriving DecidableEq, Repr

/-- Connectives. -/
inductive LogicOp
  | and
  | or
  deriving DecidableEq, Repr

/-- Operators with two operands. -/
inductive BinaryOp
  | arith (op : ArithOp)
  | compare (op : CompareOp)
  | logic (op : LogicOp)
  deriving DecidableEq, Repr

/-- Operators with one operand. -/
inductive UnaryOp
  | neg
  | not
  deriving DecidableEq, Repr

/-- A name and where it stands. -/
structure Ident where
  span : Span
  name : String
  deriving DecidableEq, Repr

/-- An expression. -/
inductive Expr
  | null (span : Span)
  | bool (span : Span) (value : Bool)
  | number (span : Span) (value : Number)
  | string (span : Span) (text : String)
  | rawString (span : Span) (text : String)
  | var (span : Span) (name : String)
  | array (span : Span) (items : List Expr)
  /-- The fields of an object, each with its span, its key and its value. -/
  | object (span : Span) (fields : List (Span × Expr × Expr))
  | call (span : Span) (callee : Expr) (args : List Expr)
  | unary (span : Span) (op : UnaryOp) (operand : Expr)
  | member (span : Span) (base : Expr) (field : Ident)
  | index (span : Span) (base : Expr) (key : Expr)
  | binary (span : Span) (op : BinaryOp) (left right : Expr)
  deriving Repr

/-- The span of an expression. -/
def Expr.span : Expr → Span
  | .null span | .bool span _ | .number span _ | .string span _ | .rawString span _ | .var span _ | .array span _
  | .object span _ | .call span _ _ | .unary span _ _ | .member span _ _ | .index span _ _ | .binary span _ _ _ => span

/-- What can be assigned to: a variable, a member or an index. -/
def Expr.isTarget : Expr → Bool
  | .var _ _ | .member _ _ _ | .index _ _ _ => true
  | _ => false

mutual

/-- A statement. -/
inductive Stmt
  | let_ (span : Span) (name : Ident) (value : Expr)
  | assign (span : Span) (target value : Expr)
  | function (span : Span) (name : Ident) (params : List Ident) (body : Block)
  | if_ (span : Span) (cond : Expr) (body : Block) (otherwise : Otherwise)
  | while_ (span : Span) (cond : Expr) (body : Block)
  | return_ (span : Span) (value : Option Expr)
  | break_ (span : Span)
  | continue_ (span : Span)
  | block (body : Block)
  | expr (span : Span) (expr : Expr)
  deriving Repr

/-- A block of statements. -/
inductive Block
  | mk (span : Span) (stmts : List Stmt)
  deriving Repr

/-- What follows the block of an `if`: nothing, a block, or another `if`. -/
inductive Otherwise
  | nothing
  | block (body : Block)
  | elseIf (span : Span) (cond : Expr) (body : Block) (otherwise : Otherwise)
  deriving Repr

end

/-- The span of a block. -/
def Block.span : Block → Span
  | .mk span _ => span

/-- The statements of a block. -/
def Block.stmts : Block → List Stmt
  | .mk _ stmts => stmts

/-- The import of the host under an alias. -/
structure HostImport where
  span : Span
  host : Ident
  deriving Repr

/-- A whole script. -/
structure Module where
  host : Option HostImport
  stmts : List Stmt
  deriving Repr

end HostScript.Script
