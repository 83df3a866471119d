import Mathlib
import HostScript.Proofs.Machine.Primitive

/-!
# The points of a run

A run does its work by starting parts of it one after the other: evaluating an expression starts the evaluation of its operands,
executing a block starts the execution of its statements, and so on. A point is a part about to be run, in the state in which it
is started and with the fuel that it is given. `Point.starts` lists the parts that a part starts directly, and `Reached` is its
closure: the points of the run of a part.
-/

namespace HostScript.Machine

open Program (Expression Statement Block Place PathSegment Function)

/-- A part of a run. -/
inductive Task
  | eval (e : Expression)
  | evalAll (es : List Expression)
  | evalFields (table : Table Value) (fields : List (Expression × Expression))
  | evalPath (path : List PathSegment)
  | execBlock (block : Block)
  | execAll (stmts : List Statement)
  | exec (s : Statement)
  | loop (cond : Expression) (body : Block)
  /-- The assignment of a value to a variable, once the keys of the path into it are known. -/
  | assign (span : Span) (name : String) (keys : List Value) (v : Value)
  /-- The entry into the body of a function, once its arguments are known. -/
  | enter (name : String) (f : Function) (args : List Value)
  /-- The call of a builtin, once its arguments are known. -/
  | apply (function : Builtin) (args : List Value)

/-- A part about to be run. -/
structure Point where
  fuel : Nat
  task : Task
  state : State

/-- What goes on after a part that ends without a fault. -/
def andThen {α β : Type} (r : EStateM.Result Halt State α) (f : α → State → List β) : List β :=
  match r with
  | .ok a after => f a after
  | .error _ _ => []

namespace Point

variable (host : Host)

/-- The parts that the evaluation of an expression starts. -/
def evalStarts (fuel : Nat) (e : Expression) (m : State) : List Point :=
  match e with
  | .const _ | .local_ _ _ | .exports => []
  | .array items => [⟨fuel, .evalAll items, m⟩]
  | .object fields => [⟨fuel, .evalFields .empty fields, m⟩]
  | .unary _ _ operand => [⟨fuel, .eval operand, m⟩]
  | .arith _ _ left right | .compare _ _ left right | .index _ left right =>
    ⟨fuel, .eval left, m⟩ :: andThen (eval host fuel left m) fun _ after => [⟨fuel, .eval right, after⟩]
  | .logic op left right =>
    ⟨fuel, .eval left, m⟩ :: andThen (eval host fuel left m) fun v after => match op, v.isTruthy with
      | .and, false | .or, true => []
      | _, _ => [⟨fuel, .eval right, after⟩]
  | .member _ base _ => [⟨fuel, .eval base, m⟩]
  | .call span name args => andThen (readFunction span name m) fun f m =>
    if args.length != f.params.length then []
    else ⟨fuel, .evalAll args, m⟩ :: andThen (evalAll host fuel args m) fun vs after => [⟨fuel, .enter name f vs, after⟩]
  | .builtin _ function args =>
    ⟨fuel, .evalAll args, m⟩ :: andThen (evalAll host fuel args m) fun vs after => [⟨fuel, .apply function vs, after⟩]
  | .output _ e | .input _ e => [⟨fuel, .eval e, m⟩]

/-- The parts that the execution of a statement starts, after its step. -/
def execStarts (fuel : Nat) (s : Statement) (m : State) : List Point :=
  match s with
  | .let_ _ value => [⟨fuel, .eval value, m⟩]
  | .assign (.local_ span name path) value =>
    ⟨fuel, .eval value, m⟩ :: andThen (eval host fuel value m) fun v after =>
      ⟨fuel, .evalPath path, after⟩ :: andThen (evalPath host fuel path after) fun keys after =>
        [⟨fuel, .assign span name keys v, after⟩]
  | .assign (.exports _ path) value =>
    ⟨fuel, .eval value, m⟩ :: andThen (eval host fuel value m) fun _ after => [⟨fuel, .evalPath path, after⟩]
  | .expr e => [⟨fuel, .eval e, m⟩]
  | .if_ cond body otherwise =>
    ⟨fuel, .eval cond, m⟩ :: andThen (eval host fuel cond m) fun v after =>
      if v.isTruthy then [⟨fuel, .execBlock body, after⟩]
      else otherwise.toList.map fun block => ⟨fuel, .execBlock block, after⟩
  | .while_ _ cond body => [⟨fuel, .loop cond body, m⟩]
  | .return_ value => value.toList.map fun e => ⟨fuel, .eval e, m⟩
  | .break_ | .continue_ => []
  | .block body => [⟨fuel, .execBlock body, m⟩]

/-- The parts that a turn of a loop starts. -/
def loopStarts (fuel : Nat) (cond : Expression) (body : Block) (m : State) : List Point :=
  ⟨fuel, .eval cond, m⟩ :: andThen (eval host fuel cond m) fun v after =>
    if v.isTruthy then
      ⟨fuel, .execBlock body, after⟩ :: andThen (execBlock host fuel body after) fun flow after => match flow with
        | .break_ | .return_ _ => []
        | .normal | .continue_ => andThen (step host after) fun _ after => [⟨fuel, .loop cond body, after⟩]
    else []

/-- The parts that a part starts directly, in their order. -/
def starts : Point → List Point
  | ⟨fuel, .enter name f args, m⟩ =>
    if m.budget.limits.maxCallDepth ≤ m.budget.depth then []
    else [⟨fuel, .execAll f.body.stmts, m.called name (callFrame f args)⟩]
  | ⟨0, _, _⟩ => []
  | ⟨fuel + 1, task, m⟩ => match task with
    | .eval e => evalStarts host fuel e m
    | .evalAll (e :: rest) =>
      ⟨fuel, .eval e, m⟩ :: andThen (eval host fuel e m) fun _ after => [⟨fuel, .evalAll rest, after⟩]
    | .evalFields table ((key, value) :: rest) =>
      ⟨fuel, .eval key, m⟩ :: andThen (eval host fuel key m) fun k after =>
        ⟨fuel, .eval value, after⟩ :: andThen (eval host fuel value after) fun v after =>
          [⟨fuel, .evalFields (Value.insertEntry k v table) rest, after⟩]
    | .evalPath (.field _ :: rest) => [⟨fuel, .evalPath rest, m⟩]
    | .evalPath (.index key :: rest) =>
      ⟨fuel, .eval key, m⟩ :: andThen (eval host fuel key m) fun _ after => [⟨fuel, .evalPath rest, after⟩]
    | .execBlock block => [⟨fuel, .execAll block.stmts, { m with scopes := bindBlock block [] :: m.scopes }⟩]
    | .execAll (s :: rest) =>
      ⟨fuel, .exec s, m⟩ :: andThen (exec host fuel s m) fun flow after => match flow with
        | .normal => [⟨fuel, .execAll rest, after⟩]
        | _ => []
    | .exec s => andThen (step host m) fun _ after => execStarts host fuel s after
    | .loop cond body => loopStarts host fuel cond body m
    | _ => []

end Point

/-- A point of the run of a part. -/
inductive Reached (host : Host) : Point → Point → Prop
  | start (p : Point) : Reached host p p
  | later {p q r : Point} (h : Reached host p q) (hr : r ∈ q.starts host) : Reached host p r

end HostScript.Machine
