import HostScript.Machine.Eval

/-!
# Scopes with links

`Machine.eval` works on a chain of scopes, where a call finds the scope of its function by its place in the chain. Here the same
language is run on scopes with links between them. A scope has hold of the scope around it, and a part of a run has hold of the scope
it works in. A function only has a weak link to the scope that declares it. A scope is released when nothing has hold of it any more,
and a call whose link leads to a scope that has been released fails. `Linked.runFor_eq` says that no call does, and that a run ends as it
does on the chain.
-/

namespace HostScript.Machine.Linked

open Program (Expression Statement Block Place PathSegment Function)

/-! ## Scopes -/

/-- Where a scope is: the number of scopes that are older. -/
abbrev Address := Nat

/-- What a name stands for in a scope. -/
inductive Slot
  /-- Declared by a `let` that has not been executed. -/
  | uninitialized
  | value (v : Value)
  /-- A function and its weak link to the scope that declares it. -/
  | function (f : Function) (home : Address)
  deriving Repr

/-- The names of one block or call. -/
abbrev Names := List (String × Slot)

/-- Puts a slot among some names, in place of one of the same name. -/
def Names.set (name : String) (slot : Slot) : Names → Names
  | [] => [(name, slot)]
  | (here, old) :: rest => if here == name then (name, slot) :: rest else (here, old) :: Names.set name slot rest

/-- A scope with its links. -/
structure Cell where
  names : Names
  /-- The scope around it, which it has hold of. -/
  parent : Option Address
  /-- How many scopes and parts of the run have hold of it. -/
  holds : Nat
  deriving Repr

namespace Cell

/-- What is left of a scope that nothing has hold of. -/
def released : Cell := ⟨[], none, 0⟩

/-- A scope that one more has hold of. -/
def retained (cell : Cell) : Cell := { cell with holds := cell.holds + 1 }

/-- A scope that one has let go of. -/
def dropped (cell : Cell) : Cell := { cell with holds := cell.holds - 1 }

/-- Puts a slot into a scope. -/
def set (name : String) (slot : Slot) (cell : Cell) : Cell := { cell with names := cell.names.set name slot }

end Cell

/-- All scopes that there have been, the latest first. -/
abbrev Heap := List Cell

namespace Heap

/-- The scope at an address. -/
def cellAt : Heap → Address → Option Cell
  | [], _ => none
  | cell :: older, a => if a = older.length then some cell else cellAt older a

/-- Changes the scope at an address. -/
def change (f : Cell → Cell) : Heap → Address → Heap
  | [], _ => []
  | cell :: older, a => if a = older.length then f cell :: older else cell :: change f older a

/-- The slot of a name in the innermost scope that has one, from an address outwards, and the address of that scope. -/
def find? (name : String) : Heap → Option Address → Option (Address × Slot)
  | _, none => none
  | [], some _ => none
  | cell :: older, some a =>
    if a = older.length then
      match cell.names.lookup name with
      | some slot => some (a, slot)
      | none => find? name older cell.parent
    else find? name older (some a)

/-- Takes hold of a scope. -/
def retain (heap : Heap) : Option Address → Heap
  | none => heap
  | some a => heap.change .retained a

/-- Lets go of a scope. With the last hold on it the scope itself lets go of the one around it. -/
def release : Heap → Option Address → Heap
  | heap, none => heap
  | [], some _ => []
  | cell :: older, some a =>
    if a = older.length then
      if cell.holds = 1 then .released :: release older cell.parent
      else cell.dropped :: older
    else cell :: release older (some a)

/-- Whether something has hold of a scope. -/
def isAlive (heap : Heap) (a : Address) : Bool := (heap.cellAt a).any (·.holds != 0)

end Heap

/-- The names of a block as its scope is entered, added to names. Its functions are linked to the scope. -/
def bindBlock (home : Address) (block : Block) (names : Names) : Names :=
  let names := block.locals.foldl (fun names name => Names.set name .uninitialized names) names
  block.functions.foldl (fun names f => Names.set f.name (.function f home) names) names

/-- The names of a call's frame. -/
def callFrame (home : Address) (f : Function) (args : List Value) : Names :=
  bindBlock home f.body ((f.params.zip args).foldl (fun names (name, v) => Names.set name (.value v) names) [])

/-! ## Runs -/

/-- The state of a run. -/
structure State where
  heap : Heap
  /-- Everything but the scopes. -/
  outside : Machine.State

/-- A part of a run. It changes the state, also when it stops early. -/
abbrev Run (α : Type) := EStateM Halt State α

variable {α : Type}

/-- A part that has nothing to do with scopes. -/
def lift (r : Machine.Run α) : Run α := fun m =>
  match r m.outside with
  | .ok a after => .ok a { m with outside := after }
  | .error halt after => .error halt { m with outside := after }

/-- Changes the state when a part ends, however it ends. -/
def ending (f : State → State) (r : Run α) : Run α := fun m =>
  match r m with
  | .ok a after => .ok a (f after)
  | .error halt after => .error halt (f after)

/-- Lets go of a scope. -/
def State.release (a : Address) (m : State) : State := { m with heap := m.heap.release (some a) }

/-- Runs a part that has hold of a scope. -/
def holding (a : Address) (body : Run α) : Run α := fun m =>
  ending (State.release a) body { m with heap := m.heap.retain (some a) }

/-- Runs a part in a new scope. The part gets the address of the scope and has hold of it until it ends. -/
def inScope (outer : Option Address) (names : Address → Names) (body : Address → Run α) : Run α := fun m =>
  let a := m.heap.length
  ending (State.release a) (body a) { m with heap := ⟨names a, outer, 1⟩ :: m.heap.retain outer }

/-- Runs the body of a call in a frame of its own inside the scope that declares the function. Entering is refused when too many
calls are open. -/
def inCall (home : Address) (frame : Address → Names) (body : Address → Run α) : Run α := fun m =>
  match m.outside.budget.enterCall with
  | .error fault => .error (.fault (.limit fault)) m
  | .ok budget =>
    let leave (after : State) : State :=
      { after with outside := { after.outside with budget := after.outside.budget.leaveCall } }
    ending leave (inScope (some home) frame body) { m with outside := { m.outside with budget } }

/-- The value of a variable. -/
def readVariable (env : Address) (span : Span) (name : String) : Run Value := do
  match (← get).heap.find? name (some env) with
  | some (_, .value v) => return v
  | some (_, .uninitialized) => lift (failAt span (.usedUninitialized name))
  | some (_, .function _ _) => lift (failAt span (.isFunction name))
  | none => lift (failAt span (.notDefined name))

/-- The function of a name, and the scope that declares it. -/
def readFunction (env : Address) (span : Span) (name : String) : Run (Function × Address) := do
  let m ← get
  match m.heap.find? name (some env) with
  | some (_, .function f home) => if m.heap.isAlive home then return (f, home) else lift (failAt span .scopeReleased)
  | some _ => lift (failAt span (.notFunction name))
  | none => lift (failAt span (.functionNotDefined name))

/-- Puts a slot into a scope. -/
def bind (name : String) (slot : Slot) (a : Address) : Run Unit :=
  modify fun m => { m with heap := m.heap.change (.set name slot) a }

/-- Assigns to a variable, at the end of a path into its value. -/
def assignVariable (env : Address) (span : Span) (name : String) (path : List Value) (v : Value) : Run Unit := do
  match (← get).heap.find? name (some env) with
  | some (at_, .value current) =>
    let (updated, fault) := Value.modifyPath (fun _ => v) path current
    bind name (.value updated) at_
    match fault with
    | none => return ()
    | some fault => lift (failAt span (.access fault))
  | some (_, .uninitialized) => lift (failAt span (.assignedUninitialized name))
  | some (_, .function _ _) => lift (failAt span (.assignsFunction name))
  | none => lift (failAt span (.notDefined name))

mutual

/-- Evaluates an expression in a scope. -/
def eval (host : Host) : Nat → Address → Expression → Run Value
  | 0, _, _ => throw .outOfFuel
  | fuel + 1, env, e => match e with
    | .const v => return v
    | .local_ span name => readVariable env span name
    | .array items => return .array (← evalAll host fuel env items)
    | .object fields => return .object (← evalFields host fuel env .empty fields)
    | .unary span op operand => do
      let v ← eval host fuel env operand
      lift (locate span id (unary op v))
    | .arith span op left right => do
      let left ← eval host fuel env left
      let right ← eval host fuel env right
      lift (locate span id (arith op left right))
    | .compare span op left right => do
      let left ← eval host fuel env left
      let right ← eval host fuel env right
      lift (locate span id (compare op left right))
    | .logic op left right => do
      let left ← eval host fuel env left
      match op, left.isTruthy with
      | .and, false => return .bool false
      | .or, true => return .bool true
      | _, _ => return .bool (← eval host fuel env right).isTruthy
    | .member span base field => do
      let v ← eval host fuel env base
      lift (locate span .access (v.get (.string field)))
    | .index span base key => do
      let v ← eval host fuel env base
      let key ← eval host fuel env key
      lift (locate span .access (v.get key))
    | .call span name args => do
      let (f, home) ← readFunction env span name
      let flow ← holding home do
        if args.length != f.params.length then lift (failAt span (.arity name f.params.length args.length))
        let args ← evalAll host fuel env args
        inCall home (callFrame · f args) fun frame => execAll host fuel frame f.body.stmts
      match flow with
      | .return_ v => return v
      | _ => return .null
    | .builtin span function args => do
      let args ← evalAll host fuel env args
      lift (locate span .builtin (function.apply args))
    | .output _ value => do
      let v ← eval host fuel env value
      lift (record (.output v))
      return .null
    | .input span prompt => do
      let prompt ← eval host fuel env prompt
      return .string (← lift (ask host span prompt.display))
    | .exports => lift do return (← get).exports
termination_by structural fuel => fuel

/-- Evaluates expressions from left to right. -/
def evalAll (host : Host) : Nat → Address → List Expression → Run (List Value)
  | 0, _, _ => throw .outOfFuel
  | _ + 1, _, [] => return []
  | fuel + 1, env, e :: rest => do
    let v ← eval host fuel env e
    return v :: (← evalAll host fuel env rest)
termination_by structural fuel => fuel

/-- Evaluates the fields of an object, each key before its value, and puts them into a table. -/
def evalFields (host : Host) :
    Nat → Address → Table Value → List (Expression × Expression) → Run (Table Value)
  | 0, _, _, _ => throw .outOfFuel
  | _ + 1, _, table, [] => return table
  | fuel + 1, env, table, (key, value) :: rest => do
    let key ← eval host fuel env key
    let value ← eval host fuel env value
    evalFields host fuel env (Value.insertEntry key value table) rest
termination_by structural fuel => fuel

/-- Evaluates the keys of a path. -/
def evalPath (host : Host) : Nat → Address → List PathSegment → Run (List Value)
  | 0, _, _ => throw .outOfFuel
  | _ + 1, _, [] => return []
  | fuel + 1, env, .field name :: rest => return .string name :: (← evalPath host fuel env rest)
  | fuel + 1, env, .index key :: rest => do
    let v ← eval host fuel env key
    return v :: (← evalPath host fuel env rest)
termination_by structural fuel => fuel

/-- Executes a block in a scope of its own. The outermost block has no scope around it. -/
def execBlock (host : Host) : Nat → Option Address → Block → Run Flow
  | 0, _, _ => throw .outOfFuel
  | fuel + 1, outer, block => inScope outer (bindBlock · block []) fun env => execAll host fuel env block.stmts
termination_by structural fuel => fuel

/-- Executes statements up to the first that leaves their block. -/
def execAll (host : Host) : Nat → Address → List Statement → Run Flow
  | 0, _, _ => throw .outOfFuel
  | _ + 1, _, [] => return .normal
  | fuel + 1, env, s :: rest => do
    match ← exec host fuel env s with
    | .normal => execAll host fuel env rest
    | flow => return flow
termination_by structural fuel => fuel

/-- Executes a statement, which is a step. -/
def exec (host : Host) : Nat → Address → Statement → Run Flow
  | 0, _, _ => throw .outOfFuel
  | fuel + 1, env, s => do
    lift (step host)
    match s with
    | .let_ name value =>
      let v ← eval host fuel env value
      bind name (.value v) env
      return .normal
    | .assign target value =>
      let v ← eval host fuel env value
      match target with
      | .local_ span name path => assignVariable env span name (← evalPath host fuel env path) v
      | .exports span path => lift (assignExports span (← evalPath host fuel env path) v)
      return .normal
    | .expr e =>
      let _ ← eval host fuel env e
      return .normal
    | .if_ cond body otherwise =>
      if (← eval host fuel env cond).isTruthy then execBlock host fuel (some env) body
      else match otherwise with
        | some otherwise => execBlock host fuel (some env) otherwise
        | none => return .normal
    | .while_ _ cond body => loop host fuel env cond body
    | .return_ none => return .return_ .null
    | .return_ (some value) => return .return_ (← eval host fuel env value)
    | .break_ => return .break_
    | .continue_ => return .continue_
    | .block body => execBlock host fuel (some env) body
termination_by structural fuel => fuel

/-- Executes a loop. Every turn but the first begins with a step. -/
def loop (host : Host) : Nat → Address → Expression → Block → Run Flow
  | 0, _, _, _ => throw .outOfFuel
  | fuel + 1, env, cond, body => do
    if !(← eval host fuel env cond).isTruthy then return .normal
    match ← execBlock host fuel (some env) body with
    | .break_ => return .normal
    | .return_ v => return .return_ v
    | _ =>
      lift (step host)
      loop host fuel env cond body
termination_by structural fuel => fuel

end

/-- Runs a program to its end. -/
def runWith (host : Host) (fuel : Nat) (program : Program) : Run Unit := do
  match ← execBlock host fuel none program.body with
  | .normal => return ()
  | _ => throw (.fault .strayFlow)

/-- Runs a program from the start with the given fuel. -/
def runFor (host : Host) (fuel : Nat) (limits : Limits) (answers : List String) (program : Program) : Result :=
  match runWith host fuel program ⟨[], .start limits answers⟩ with
  | .ok _ after => ⟨after.outside, none⟩
  | .error halt after => ⟨after.outside, some halt⟩

end HostScript.Machine.Linked
