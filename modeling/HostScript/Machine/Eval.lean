import HostScript.Machine.Operators
import HostScript.Machine.Store

/-!
# Executing programs

The evaluation of expressions and the execution of statements. The recursion is bounded by fuel; with more fuel a run that ends
stays the same. `Machine.run` gives so much of it that no run that can be waited for uses it up.
-/

namespace HostScript.Machine

open Program (Expression Statement Block Place PathSegment Function)

/-- Runs a part inside a new innermost scope, which is dropped afterwards. -/
def inScope {α : Type} (scope : Scope) (body : Run α) : Run α := fun m =>
  match body { m with scopes := scope :: m.scopes } with
  | .ok a after => .ok a { after with scopes := after.scopes.tail }
  | .error e after => .error e { after with scopes := after.scopes.tail }

/-- Runs the body of a call in a frame of its own on top of the scope that declares the function. The scopes inside that one are
out of sight until the call ends. Entering is refused when too many calls are open. -/
def inCall {α : Type} (name : String) (frame : Scope) (body : Run α) : Run α := fun m =>
  match m.budget.enterCall with
  | .error fault => .error (.fault (.limit fault)) m
  | .ok budget =>
    let depth := scopeDepth name m.scopes
    let hidden := m.scopes.take depth
    let restore (after : State) : State :=
      { after with scopes := hidden ++ after.scopes.tail, budget := after.budget.leaveCall }
    match body { m with scopes := frame :: m.scopes.drop depth, budget } with
    | .ok a after => .ok a (restore after)
    | .error e after => .error e (restore after)

/-- The frame of a call: its parameters bound to the arguments, and the names of the function's body. -/
def callFrame (f : Function) (args : List Value) : Scope :=
  bindBlock f.body ((f.params.zip args).foldl (fun scope (name, v) => Scope.set name (.value v) scope) [])

mutual

/-- Evaluates an expression. -/
def eval (host : Host) : Nat → Expression → Run Value
  | 0, _ => throw .outOfFuel
  | fuel + 1, e => match e with
    | .const v => return v
    | .local_ span name => readVariable span name
    | .array items => return .array (← evalAll host fuel items)
    | .object fields => return .object (← evalFields host fuel .empty fields)
    | .unary span op operand => do
      let v ← eval host fuel operand
      locate span id (unary op v)
    | .arith span op left right => do
      let left ← eval host fuel left
      let right ← eval host fuel right
      locate span id (arith op left right)
    | .compare span op left right => do
      let left ← eval host fuel left
      let right ← eval host fuel right
      locate span id (compare op left right)
    | .logic op left right => do
      let left ← eval host fuel left
      match op, left.isTruthy with
      | .and, false => return .bool false
      | .or, true => return .bool true
      | _, _ => return .bool (← eval host fuel right).isTruthy
    | .member span base field => do
      let v ← eval host fuel base
      locate span .access (v.get (.string field))
    | .index span base key => do
      let v ← eval host fuel base
      let key ← eval host fuel key
      locate span .access (v.get key)
    | .call span name args => do
      let f ← readFunction span name
      if args.length != f.params.length then failAt span (.arity name f.params.length args.length)
      let args ← evalAll host fuel args
      match ← inCall name (callFrame f args) (execAll host fuel f.body.stmts) with
      | .return_ v => return v
      | _ => return .null
    | .builtin span function args => do
      let args ← evalAll host fuel args
      locate span .builtin (function.apply args)
    | .output _ value => do
      let v ← eval host fuel value
      record (.output v)
      return .null
    | .input span prompt => do
      let prompt ← eval host fuel prompt
      return .string (← ask host span prompt.display)
    | .exports => return (← get).exports

/-- Evaluates expressions from left to right. -/
def evalAll (host : Host) : Nat → List Expression → Run (List Value)
  | 0, _ => throw .outOfFuel
  | _ + 1, [] => return []
  | fuel + 1, e :: rest => do
    let v ← eval host fuel e
    return v :: (← evalAll host fuel rest)

/-- Evaluates the fields of an object, each key before its value, and puts them into a table. -/
def evalFields (host : Host) :
    Nat → Table Value → List (Expression × Expression) → Run (Table Value)
  | 0, _, _ => throw .outOfFuel
  | _ + 1, table, [] => return table
  | fuel + 1, table, (key, value) :: rest => do
    let key ← eval host fuel key
    let value ← eval host fuel value
    evalFields host fuel (Value.insertEntry key value table) rest

/-- Evaluates the keys of a path. -/
def evalPath (host : Host) : Nat → List PathSegment → Run (List Value)
  | 0, _ => throw .outOfFuel
  | _ + 1, [] => return []
  | fuel + 1, .field name :: rest => return .string name :: (← evalPath host fuel rest)
  | fuel + 1, .index key :: rest => do
    let v ← eval host fuel key
    return v :: (← evalPath host fuel rest)

/-- Executes a block in a scope of its own. -/
def execBlock (host : Host) : Nat → Block → Run Flow
  | 0, _ => throw .outOfFuel
  | fuel + 1, block => inScope (bindBlock block []) (execAll host fuel block.stmts)

/-- Executes statements up to the first that leaves their block. -/
def execAll (host : Host) : Nat → List Statement → Run Flow
  | 0, _ => throw .outOfFuel
  | _ + 1, [] => return .normal
  | fuel + 1, s :: rest => do
    match ← exec host fuel s with
    | .normal => execAll host fuel rest
    | flow => return flow

/-- Executes a statement, which is a step. -/
def exec (host : Host) : Nat → Statement → Run Flow
  | 0, _ => throw .outOfFuel
  | fuel + 1, s => do
    step host
    match s with
    | .let_ name value =>
      let v ← eval host fuel value
      bind name (.value v)
      return .normal
    | .assign target value =>
      let v ← eval host fuel value
      match target with
      | .local_ span name path => assignVariable span name (← evalPath host fuel path) v
      | .exports span path => assignExports span (← evalPath host fuel path) v
      return .normal
    | .expr e =>
      let _ ← eval host fuel e
      return .normal
    | .if_ cond body otherwise =>
      if (← eval host fuel cond).isTruthy then execBlock host fuel body
      else match otherwise with
        | some otherwise => execBlock host fuel otherwise
        | none => return .normal
    | .while_ _ cond body => loop host fuel cond body
    | .return_ none => return .return_ .null
    | .return_ (some value) => return .return_ (← eval host fuel value)
    | .break_ => return .break_
    | .continue_ => return .continue_
    | .block body => execBlock host fuel body

/-- Executes a loop. Every turn but the first begins with a step. -/
def loop (host : Host) : Nat → Expression → Block → Run Flow
  | 0, _, _ => throw .outOfFuel
  | fuel + 1, cond, body => do
    if !(← eval host fuel cond).isTruthy then return .normal
    match ← execBlock host fuel body with
    | .break_ => return .normal
    | .return_ v => return .return_ v
    | _ =>
      step host
      loop host fuel cond body

end

/-- Runs a program to its end. -/
def runWith (host : Host) (fuel : Nat) (program : Program) : Run Unit := do
  match ← execBlock host fuel program.body with
  | .normal => return ()
  | _ => throw (.fault .strayFlow)

/-- More fuel than a run can use up in a lifetime. -/
def ampleFuel : Nat := 1000000000000000000

/-- How a run ends: the state it leaves and why it stopped early, if it did. -/
structure Result where
  state : State
  halt : Option Halt

/-- Runs a program from the start. -/
def run (host : Host) (limits : Limits) (answers : List String) (program : Program) : Result :=
  match runWith host ampleFuel program (.start limits answers) with
  | .ok _ after => ⟨after, none⟩
  | .error halt after => ⟨after, some halt⟩

end HostScript.Machine
