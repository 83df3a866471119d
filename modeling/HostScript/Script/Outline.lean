import HostScript.Script.Basic
import HostScript.Value.Outline

/-!
# The outline of a script

How diagnostics show the tree of a script: every node under the name of its kind, with its span first.
-/

namespace HostScript.Script

/-- The outline of a span. -/
def spanOutline (source : Source) (span : Span) : Outline := .leaf (source.showSpan span)

/-- A node: its name, its span and its other fields. -/
def node (source : Source) (name : String) (span : Span) (fields : List (String × Outline)) : Outline :=
  .record name (("span", spanOutline source span) :: fields)

/-- The name of an arithmetic operator. -/
def ArithOp.name : ArithOp → String
  | .add => "Add"
  | .sub => "Sub"
  | .mul => "Mul"
  | .div => "Div"
  | .mod => "Mod"

/-- The name of a comparison. -/
def CompareOp.name : CompareOp → String
  | .lt => "Lt"
  | .le => "Le"
  | .eq => "Eq"
  | .ge => "Ge"
  | .gt => "Gt"
  | .ne => "Ne"

/-- The name of a connective. -/
def LogicOp.name : LogicOp → String
  | .and => "And"
  | .or => "Or"

/-- The name of a unary operator. -/
def UnaryOp.name : UnaryOp → String
  | .neg => "Neg"
  | .not => "Not"

/-- The name of a binary operator. -/
def BinaryOp.name : BinaryOp → String
  | .arith op => op.name
  | .compare op => op.name
  | .logic op => op.name

/-- The name of a node with a binary operator. -/
def BinaryOp.nodeName : BinaryOp → String
  | .arith _ => "ArithExpr"
  | .compare _ => "BoolExpr"
  | .logic _ => "LogicExpr"

mutual

/-- The outline of an expression. -/
def Expr.outline (source : Source) : Expr → Outline
  | .null span => node source "Null" span []
  | .bool span value => node source "Bool" span [("value", (Value.bool value).outline)]
  | .number span value => node source "Number" span [("value", (Value.number value).outline)]
  | .string span text => node source "String" span [("value", (Value.string text).outline)]
  | .rawString span text => node source "RawString" span [("value", (Value.string text).outline)]
  | .var span _ => node source "Var" span []
  | .array span items => node source "Array" span [("items", .list (Expr.outlines source items))]
  | .object span fields => node source "Object" span [("fields", .list (Expr.fieldOutlines source fields))]
  | .call span callee args =>
    node source "Call" span [("fcn", callee.outline source), ("params", .list (Expr.outlines source args))]
  | .unary span op operand => node source "UnaryExpr" span [("op", .leaf op.name), ("expr", operand.outline source)]
  | .member span base field =>
    node source "RefDot" span [("refr", base.outline source), ("field", spanOutline source field.span)]
  | .index span base key => node source "RefBrack" span [("refr", base.outline source), ("index", key.outline source)]
  | .binary span op left right =>
    node source op.nodeName span
      [("op", .leaf op.name), ("lhs", left.outline source), ("rhs", right.outline source)]

/-- The outlines of expressions. -/
def Expr.outlines (source : Source) : List Expr → List Outline
  | [] => []
  | e :: rest => e.outline source :: Expr.outlines source rest

/-- The outlines of the fields of an object. -/
def Expr.fieldOutlines (source : Source) : List (Span × Expr × Expr) → List Outline
  | [] => []
  | (span, key, value) :: rest =>
    .tuple "" [spanOutline source span, key.outline source, value.outline source] :: Expr.fieldOutlines source rest

end

mutual

/-- The outline of a statement. -/
def Stmt.outline (source : Source) : Stmt → Outline
  | .let_ span name value =>
    node source "Let" span [("name", spanOutline source name.span), ("value", value.outline source)]
  | .assign span target value =>
    node source "Assign" span [("target", target.outline source), ("value", value.outline source)]
  | .function span name params body =>
    .tuple "Function" [node source "FunctionDecl" span
      [("name", spanOutline source name.span), ("params", .list (params.map fun p => spanOutline source p.span)),
        ("body", body.outline source)]]
  | .if_ span cond body otherwise =>
    node source "If" span [("cond", cond.outline source), ("then_block", body.outline source),
      ("else_stmt", .option (otherwise.outline? source))]
  | .while_ span cond body =>
    node source "While" span [("cond", cond.outline source), ("body", body.outline source)]
  | .return_ span value => node source "Return" span [("value", .option (value.map (·.outline source)))]
  | .break_ span => node source "Break" span []
  | .continue_ span => node source "Continue" span []
  | .block body => .tuple "Block" [body.outline source]
  | .expr span expr => node source "Expr" span [("expr", expr.outline source)]

/-- The outline of a block. -/
def Block.outline (source : Source) : Block → Outline
  | .mk span stmts => node source "Block" span [("stmts", .list (Stmt.outlines source stmts))]

/-- The outline of what follows the block of an `if`. -/
def Otherwise.outline? (source : Source) : Otherwise → Option Outline
  | .nothing => none
  | .block body => some (.tuple "Block" [body.outline source])
  | .elseIf span cond body otherwise =>
    some (node source "If" span [("cond", cond.outline source), ("then_block", body.outline source),
      ("else_stmt", .option (otherwise.outline? source))])

/-- The outlines of statements. -/
def Stmt.outlines (source : Source) : List Stmt → List Outline
  | [] => []
  | s :: rest => s.outline source :: Stmt.outlines source rest

end

/-- The outline of a script. -/
def Module.outline (source : Source) (m : Module) : Outline :=
  .record "Module"
    [("host", .option (m.host.map fun h => node source "HostImport" h.span [("alias", spanOutline source h.host.span)])),
      ("stmts", .list (Stmt.outlines source m.stmts))]

end HostScript.Script
