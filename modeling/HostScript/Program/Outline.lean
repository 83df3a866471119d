import HostScript.Program.Basic
import HostScript.Script.Outline

/-!
# The outline of a program

How diagnostics show a resolved program. A builtin is shown with the number of its arguments.
-/

namespace HostScript.Program

open Script (spanOutline node)

/-- The outline of a name. -/
def nameOutline (name : String) : Outline := .leaf (Text.quoted name)

/-- The number that shows how many arguments a builtin takes; a varying number is shown as the largest byte. -/
def arityText (function : Builtin) : String := toString (function.arity?.getD 255)

mutual

/-- The outline of an expression. -/
def Expression.outline (source : Source) : Expression → Outline
  | .const value => .tuple "Const" [value.outline]
  | .local_ span name => node source "Local" span [("name", nameOutline name)]
  | .array items => .tuple "Array" [.list (Expression.outlines source items)]
  | .object fields => .tuple "Object" [.list (Expression.fieldOutlines source fields)]
  | .unary span op operand => node source "Unary" span [("op", .leaf op.name), ("expr", operand.outline source)]
  | .arith span op left right =>
    node source "Arith" span [("op", .leaf op.name), ("lhs", left.outline source), ("rhs", right.outline source)]
  | .compare span op left right =>
    node source "Compare" span [("op", .leaf op.name), ("lhs", left.outline source), ("rhs", right.outline source)]
  | .logic op left right =>
    .record "Logic" [("op", .leaf op.name), ("lhs", left.outline source), ("rhs", right.outline source)]
  | .member span base field =>
    node source "Member" span [("refr", base.outline source), ("field", nameOutline field)]
  | .index span base key => node source "Index" span [("refr", base.outline source), ("index", key.outline source)]
  | .call span name args =>
    node source "Call" span [("name", nameOutline name), ("args", .list (Expression.outlines source args))]
  | .builtin span function args =>
    node source "Builtin" span
      [("name", nameOutline function.name), ("fcn", .tuple "" [.leaf "_", .leaf (arityText function)]),
        ("args", .list (Expression.outlines source args))]
  | .output span value => node source "Output" span [("value", value.outline source)]
  | .input span prompt => node source "Input" span [("prompt", prompt.outline source)]
  | .exports => .leaf "Exports"

/-- The outlines of expressions. -/
def Expression.outlines (source : Source) : List Expression → List Outline
  | [] => []
  | e :: rest => e.outline source :: Expression.outlines source rest

/-- The outlines of the fields of an object. -/
def Expression.fieldOutlines (source : Source) : List (Expression × Expression) → List Outline
  | [] => []
  | (key, value) :: rest =>
    .tuple "" [key.outline source, value.outline source] :: Expression.fieldOutlines source rest

end

/-- The outline of a step into a container. -/
def PathSegment.outline (source : Source) : PathSegment → Outline
  | .field name => .tuple "Field" [nameOutline name]
  | .index key => .tuple "Index" [key.outline source]

/-- The outline of an assignment's target. -/
def Place.outline (source : Source) : Place → Outline
  | .local_ span name path =>
    node source "Local" span [("name", nameOutline name), ("path", .list (path.map (·.outline source)))]
  | .exports span path => node source "Exports" span [("path", .list (path.map (·.outline source)))]

mutual

/-- The outline of a statement. -/
def Statement.outline (source : Source) : Statement → Outline
  | .let_ name value => .record "Let" [("name", nameOutline name), ("value", value.outline source)]
  | .assign target value => .record "Assign" [("target", target.outline source), ("value", value.outline source)]
  | .expr expr => .tuple "Expr" [expr.outline source]
  | .if_ cond body none =>
    .record "If" [("cond", cond.outline source), ("then_block", body.outline source), ("else_block", .option none)]
  | .if_ cond body (some otherwise) =>
    .record "If" [("cond", cond.outline source), ("then_block", body.outline source),
      ("else_block", .option (some (otherwise.outline source)))]
  | .while_ span cond body =>
    node source "While" span [("cond", cond.outline source), ("body", body.outline source)]
  | .return_ value => .tuple "Return" [.option (value.map (·.outline source))]
  | .break_ => .leaf "Break"
  | .continue_ => .leaf "Continue"
  | .block body => .tuple "Block" [body.outline source]

/-- The outline of a block. -/
def Block.outline (source : Source) : Block → Outline
  | .mk locals functions stmts => .record "Block"
    [("locals", .list (locals.map nameOutline)), ("functions", .list (Function.outlines source functions)),
      ("stmts", .list (Statement.outlines source stmts))]

/-- The outline of a function. -/
def Function.outline (source : Source) : Function → Outline
  | .mk span name params body =>
    node source "Function" span
      [("name", nameOutline name), ("params", .list (params.map nameOutline)), ("body", body.outline source)]

/-- The outlines of functions. -/
def Function.outlines (source : Source) : List Function → List Outline
  | [] => []
  | f :: rest => f.outline source :: Function.outlines source rest

/-- The outlines of statements. -/
def Statement.outlines (source : Source) : List Statement → List Outline
  | [] => []
  | s :: rest => s.outline source :: Statement.outlines source rest

end

end HostScript.Program
