import Mathlib
import HostScript.Program.Basic

/-!
# The nodes of a program

All expressions, places, statements, blocks and functions in a program, each in front of what stands in it.
-/

namespace HostScript.Program

/-- A node of a program. -/
inductive Node
  | expr (e : Expression)
  | place (place : Place)
  | stmt (s : Statement)
  | block (body : Block)
  | function (f : Function)

mutual

/-- An expression and all expressions in it. -/
def Expression.nodes : Expression → List Node
  | .const v => [.expr (.const v)]
  | .local_ span name => [.expr (.local_ span name)]
  | .array items => .expr (.array items) :: Expression.allNodes items
  | .object fields => .expr (.object fields) :: Expression.fieldNodes fields
  | .unary span op operand => .expr (.unary span op operand) :: operand.nodes
  | .arith span op left right => .expr (.arith span op left right) :: (left.nodes ++ right.nodes)
  | .compare span op left right => .expr (.compare span op left right) :: (left.nodes ++ right.nodes)
  | .logic op left right => .expr (.logic op left right) :: (left.nodes ++ right.nodes)
  | .member span base field => .expr (.member span base field) :: base.nodes
  | .index span base key => .expr (.index span base key) :: (base.nodes ++ key.nodes)
  | .call span name args => .expr (.call span name args) :: Expression.allNodes args
  | .builtin span function args => .expr (.builtin span function args) :: Expression.allNodes args
  | .output span value => .expr (.output span value) :: value.nodes
  | .input span prompt => .expr (.input span prompt) :: prompt.nodes
  | .exports => [.expr .exports]

/-- All nodes of expressions. -/
def Expression.allNodes : List Expression → List Node
  | [] => []
  | e :: rest => e.nodes ++ Expression.allNodes rest

/-- All nodes of the fields of an object. -/
def Expression.fieldNodes : List (Expression × Expression) → List Node
  | [] => []
  | (key, value) :: rest => key.nodes ++ value.nodes ++ Expression.fieldNodes rest

end

/-- All nodes of the steps of a path. -/
def pathNodes : List PathSegment → List Node
  | [] => []
  | .field _ :: rest => pathNodes rest
  | .index key :: rest => key.nodes ++ pathNodes rest

/-- A place and all nodes of its path. -/
def Place.nodes : Place → List Node
  | .local_ span name path => .place (.local_ span name path) :: pathNodes path
  | .exports span path => .place (.exports span path) :: pathNodes path

mutual

/-- A statement and all nodes in it. -/
def Statement.nodes : Statement → List Node
  | .let_ name value => .stmt (.let_ name value) :: value.nodes
  | .assign target value => .stmt (.assign target value) :: (target.nodes ++ value.nodes)
  | .expr e => .stmt (.expr e) :: e.nodes
  | .if_ cond body none => .stmt (.if_ cond body none) :: (cond.nodes ++ body.nodes)
  | .if_ cond body (some otherwise) => .stmt (.if_ cond body (some otherwise)) :: (cond.nodes ++ (body.nodes ++ otherwise.nodes))
  | .while_ span cond body => .stmt (.while_ span cond body) :: (cond.nodes ++ body.nodes)
  | .return_ none => [.stmt (.return_ none)]
  | .return_ (some value) => .stmt (.return_ (some value)) :: value.nodes
  | .break_ => [.stmt .break_]
  | .continue_ => [.stmt .continue_]
  | .block body => .stmt (.block body) :: body.nodes

/-- A block and all nodes in it. -/
def Block.nodes : Block → List Node
  | .mk locals functions stmts => .block (.mk locals functions stmts) :: (Function.allNodes functions ++ Statement.allNodes stmts)

/-- A function and all nodes in it. -/
def Function.nodes : Function → List Node
  | .mk span name params body => .function (.mk span name params body) :: body.nodes

/-- All nodes of functions. -/
def Function.allNodes : List Function → List Node
  | [] => []
  | f :: rest => f.nodes ++ Function.allNodes rest

/-- All nodes of statements. -/
def Statement.allNodes : List Statement → List Node
  | [] => []
  | s :: rest => s.nodes ++ Statement.allNodes rest

end

end HostScript.Program
