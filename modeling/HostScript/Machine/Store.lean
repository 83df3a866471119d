import HostScript.Machine.Basic

/-!
# Names at run time

Reading and assigning variables, and finding functions, along the chain of scopes.
-/

namespace HostScript.Machine

open Program (Block Function)

/-- The slot of a name in the innermost scope that has one. -/
def findSlot? (name : String) : List Scope → Option Slot
  | [] => none
  | scope :: rest => match scope.lookup name with
    | some slot => some slot
    | none => findSlot? name rest

/-- The number of scopes inside the innermost one that has a name. -/
def scopeDepth (name : String) : List Scope → Nat
  | [] => 0
  | scope :: rest => if (scope.lookup name).isSome then 0 else scopeDepth name rest + 1

/-- Puts a slot into the innermost scope that has the name. -/
def replaceSlot (name : String) (slot : Slot) : List Scope → List Scope
  | [] => []
  | scope :: rest =>
    if (scope.lookup name).isSome then Scope.set name slot scope :: rest else scope :: replaceSlot name slot rest

/-- The value of a variable. -/
def readVariable (span : Span) (name : String) : Run Value := do
  match findSlot? name (← get).scopes with
  | some (.value v) => return v
  | some .uninitialized => failAt span (.usedUninitialized name)
  | some (.function _) => failAt span (.isFunction name)
  | none => failAt span (.notDefined name)

/-- The function of a name. -/
def readFunction (span : Span) (name : String) : Run Function := do
  match findSlot? name (← get).scopes with
  | some (.function f) => return f
  | some _ => failAt span (.notFunction name)
  | none => failAt span (.functionNotDefined name)

/-- Binds a name in the innermost scope. -/
def bind (name : String) (slot : Slot) : Run Unit :=
  modify fun m => match m.scopes with
    | [] => { m with scopes := [[(name, slot)]] }
    | scope :: rest => { m with scopes := Scope.set name slot scope :: rest }

/-- The names of a block as it is entered, added to a scope. -/
def bindBlock (block : Block) (scope : Scope) : Scope :=
  let scope := block.locals.foldl (fun scope name => Scope.set name .uninitialized scope) scope
  block.functions.foldl (fun scope f => Scope.set f.name (.function f) scope) scope

/-- Assigns to a variable, at the end of a path into its value. -/
def assignVariable (span : Span) (name : String) (path : List Value) (v : Value) : Run Unit := do
  match findSlot? name (← get).scopes with
  | some (.value current) =>
    let (updated, fault) := Value.modifyPath (fun _ => v) path current
    modify fun m => { m with scopes := replaceSlot name (.value updated) m.scopes }
    match fault with
    | none => return ()
    | some fault => failAt span (.access fault)
  | some .uninitialized => failAt span (.assignedUninitialized name)
  | some (.function _) => failAt span (.assignsFunction name)
  | none => failAt span (.notDefined name)

/-- Assigns to the table of exports, or at the end of a path into it. The table itself has to stay an object. -/
def assignExports (span : Span) (path : List Value) (v : Value) : Run Unit := do
  match path, v with
  | [], .object _ => modify fun m => { m with exports := v }
  | [], _ => failAt span (.exportsType v.typeName)
  | _, _ =>
    let (updated, fault) := Value.modifyPath (fun _ => v) path (← get).exports
    modify fun m => { m with exports := updated }
    match fault with
    | none => return ()
    | some fault => failAt span (.access fault)

end HostScript.Machine
