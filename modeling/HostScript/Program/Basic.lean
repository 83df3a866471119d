import HostScript.Builtin
import HostScript.Script.Basic

/-!
# Resolved programs

A script in which every name has been given its meaning: a variable, a script function, a builtin, or a capability of the host.
-/

namespace HostScript.Program

open Script (ArithOp CompareOp LogicOp UnaryOp)

/-- An expression of a resolved program. -/
inductive Expression
  | const (value : Value)
  /-- A variable or a parameter. -/
  | local_ (span : Span) (name : String)
  | array (items : List Expression)
  | object (fields : List (Expression × Expression))
  | unary (span : Span) (op : UnaryOp) (operand : Expression)
  | arith (span : Span) (op : ArithOp) (left right : Expression)
  | compare (span : Span) (op : CompareOp) (left right : Expression)
  | logic (op : LogicOp) (left right : Expression)
  | member (span : Span) (base : Expression) (field : String)
  | index (span : Span) (base key : Expression)
  /-- A call of a script function. -/
  | call (span : Span) (name : String) (args : List Expression)
  | builtin (span : Span) (function : Builtin) (args : List Expression)
  /-- Writes a value to the host. -/
  | output (span : Span) (value : Expression)
  /-- Asks the host for a line. -/
  | input (span : Span) (prompt : Expression)
  /-- The table of exports. -/
  | exports
  deriving Repr

/-- A step into a container. -/
inductive PathSegment
  | field (name : String)
  | index (key : Expression)
  deriving Repr

/-- What is assigned to: a variable or the exports, and a path into its value. -/
inductive Place
  | local_ (span : Span) (name : String) (path : List PathSegment)
  | exports (span : Span) (path : List PathSegment)
  deriving Repr

mutual

/-- A statement of a resolved program. -/
inductive Statement
  | let_ (name : String) (value : Expression)
  | assign (target : Place) (value : Expression)
  | expr (expr : Expression)
  | if_ (cond : Expression) (body : Block) (otherwise : Option Block)
  | while_ (span : Span) (cond : Expression) (body : Block)
  | return_ (value : Option Expression)
  | break_
  | continue_
  | block (body : Block)
  deriving Repr

/-- A block: the names declared directly in it, which are unbound until their declaration is executed, the functions declared
directly in it, which are bound from the start, and its other statements. -/
inductive Block
  | mk (locals : List String) (functions : List Function) (stmts : List Statement)
  deriving Repr

/-- A function. -/
inductive Function
  | mk (span : Span) (name : String) (params : List String) (body : Block)
  deriving Repr

end

/-- The names declared in a block. -/
def Block.locals : Block → List String
  | .mk locals _ _ => locals

/-- The functions declared in a block. -/
def Block.functions : Block → List Function
  | .mk _ functions _ => functions

/-- The statements of a block. -/
def Block.stmts : Block → List Statement
  | .mk _ _ stmts => stmts

/-- The span of a function. -/
def Function.span : Function → Span
  | .mk span _ _ _ => span

/-- The name of a function. -/
def Function.name : Function → String
  | .mk _ name _ _ => name

/-- The parameters of a function. -/
def Function.params : Function → List String
  | .mk _ _ params _ => params

/-- The body of a function. -/
def Function.body : Function → Block
  | .mk _ _ _ body => body

end HostScript.Program

/-- A resolved program: the alias of the host, if it is imported, and the outermost block. -/
structure HostScript.Program where
  host : Option String
  body : HostScript.Program.Block
  deriving Repr
