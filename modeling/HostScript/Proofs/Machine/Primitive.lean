import Mathlib
import HostScript.Machine.Eval

/-!
# The primitive parts of a run as functions

What each primitive part of a run does to a state, as an equation. Later statements about runs use these equations and never open
the monad.
-/

namespace HostScript.Machine

open Program (Function)

variable {α β : Type}

/-- The state that a part of a run leaves, however it ends. -/
def leaves : EStateM.Result Halt State α → State
  | .ok _ m => m
  | .error _ m => m

/-- Behind a part that has a value, the rest goes on with the value. -/
theorem bind_ok {r : Run α} {m after : State} {a : α} (h : r m = .ok a after) (f : α → Run β) : (r >>= f) m = f a after := by
  simp only [Bind.bind, EStateM.bind, h]

/-- Behind a part that stops, the rest is not run. -/
theorem bind_error {r : Run α} {m after : State} {halt : Halt} (h : r m = .error halt after) (f : α → Run β) :
    (r >>= f) m = .error halt after := by
  simp only [Bind.bind, EStateM.bind, h]

/-- A look at the state goes on with the state. -/
theorem bind_get (f : State → Run β) (m : State) : (get >>= f) m = f m m := rfl

/-- A step counts in the budget, and stops the run if the budget says so. -/
theorem step_apply (host : Host) (m : State) :
    step host m = match m.budget.step (host.clock (m.budget.steps + 1)) with
      | (budget, none) => .ok () { m with budget }
      | (budget, some fault) => .error (.fault (.limit fault)) { m with budget } := by
  unfold step
  rw [bind_get]
  rcases m.budget.step (host.clock (m.budget.steps + 1)) with ⟨budget, _ | fault⟩ <;> rfl

/-- A question is recorded, and takes the next answer if there is one. -/
theorem ask_apply (host : Host) (span : Span) (prompt : String) (m : State) :
    ask host span prompt m = match m.answers with
      | [] => .error (.fault (.problem span (.noAnswer host.input prompt))) { m with events := .prompt prompt :: m.events }
      | answer :: rest => .ok answer { m with events := .prompt prompt :: m.events, answers := rest } := by
  rcases m with ⟨scopes, exports, budget, events, _ | ⟨answer, rest⟩⟩ <;> rfl

/-- Reading a variable leaves the state alone. -/
theorem readVariable_apply (span : Span) (name : String) (m : State) :
    readVariable span name m = match findSlot? name m.scopes with
      | some (.value v) => .ok v m
      | some .uninitialized => .error (.fault (.problem span (.usedUninitialized name))) m
      | some (.function _) => .error (.fault (.problem span (.isFunction name))) m
      | none => .error (.fault (.problem span (.notDefined name))) m := by
  unfold readVariable
  rw [bind_get]
  rcases findSlot? name m.scopes with _ | _ | _ | _ <;> rfl

/-- Reading a function leaves the state alone. -/
theorem readFunction_apply (span : Span) (name : String) (m : State) :
    readFunction span name m = match findSlot? name m.scopes with
      | some (.function f) => .ok f m
      | some _ => .error (.fault (.problem span (.notFunction name))) m
      | none => .error (.fault (.problem span (.functionNotDefined name))) m := by
  unfold readFunction
  rw [bind_get]
  rcases findSlot? name m.scopes with _ | _ | _ | _ <;> rfl

/-- A name is bound in the innermost scope. -/
theorem bindName_apply (name : String) (slot : Slot) (m : State) :
    Machine.bind name slot m = .ok () { m with scopes := match m.scopes with
      | [] => [[(name, slot)]]
      | scope :: rest => Scope.set name slot scope :: rest } := by
  rcases m with ⟨_ | ⟨scope, rest⟩, exports, budget, events, answers⟩ <;> rfl

/-- An assignment replaces the value in the slot of the variable, along the path. -/
theorem assignVariable_apply (span : Span) (name : String) (path : List Value) (v : Value) (m : State) :
    assignVariable span name path v m = match findSlot? name m.scopes with
      | some (.value current) =>
        let after := { m with
          scopes := replaceSlot name (.value (Value.modifyPath (fun _ => v) path current).1) m.scopes }
        match (Value.modifyPath (fun _ => v) path current).2 with
        | none => .ok () after
        | some fault => .error (.fault (.problem span (.access fault))) after
      | some .uninitialized => .error (.fault (.problem span (.assignedUninitialized name))) m
      | some (.function _) => .error (.fault (.problem span (.assignsFunction name))) m
      | none => .error (.fault (.problem span (.notDefined name))) m := by
  unfold assignVariable
  rw [bind_get]
  rcases findSlot? name m.scopes with _ | _ | current | _
  · rfl
  · rfl
  · simp only
    rcases Value.modifyPath (fun _ => v) path current with ⟨updated, _ | fault⟩ <;> rfl
  · rfl

/-- The exports and the problem, if there is one, after an assignment to the exports. -/
def assignedExports (path : List Value) (v exports : Value) : Value × Option Problem :=
  match path, v with
  | [], .object _ => (v, none)
  | [], _ => (exports, some (.exportsType v.typeName))
  | _, _ =>
    let (updated, fault) := Value.modifyPath (fun _ => v) path exports
    (updated, fault.map .access)

/-- An assignment replaces the exports, along the path. -/
theorem assignExports_apply (span : Span) (path : List Value) (v : Value) (m : State) :
    assignExports span path v m = match assignedExports path v m.exports with
      | (exports, none) => .ok () { m with exports }
      | (exports, some problem) => .error (.fault (.problem span problem)) { m with exports } := by
  unfold assignExports assignedExports
  cases path with
  | nil => cases v <;> rfl
  | cons key rest =>
    simp only
    rw [bind_get]
    rcases Value.modifyPath (fun _ => v) (key :: rest) m.exports with ⟨updated, _ | fault⟩ <;> rfl

/-- A part of a run whose state is changed when it ends, however it ends. -/
def leaving (f : State → State) : EStateM.Result Halt State α → EStateM.Result Halt State α
  | .ok a m => .ok a (f m)
  | .error halt m => .error halt (f m)

/-- A change of the state at the end applies to the state that is left. -/
@[simp] theorem leaves_leaving (f : State → State) (r : EStateM.Result Halt State α) : leaves (leaving f r) = f (leaves r) := by
  cases r <;> rfl

/-- The state after a block: its scope is dropped. -/
def State.dropScope (m : State) : State := { m with scopes := m.scopes.tail }

/-- A part in a scope of its own runs with the scope in front, and leaves it in any case. -/
theorem inScope_apply (scope : Scope) (body : Run α) (m : State) :
    inScope scope body m = leaving State.dropScope (body { m with scopes := scope :: m.scopes }) := by
  unfold inScope leaving
  cases body { m with scopes := scope :: m.scopes } <;> rfl

/-- The state at the start of a call: its frame is in front of the scope that has the name and of those around it. -/
def State.called (name : String) (frame : Scope) (m : State) : State :=
  { m with
    scopes := frame :: m.scopes.drop (scopeDepth name m.scopes)
    budget := { m.budget with depth := m.budget.depth + 1 } }

/-- The state after a call: what was hidden is back in front of the chain that the call has worked on. -/
def State.returned (hidden : List Scope) (after : State) : State :=
  { after with scopes := hidden ++ after.scopes.tail, budget := after.budget.leaveCall }

/-- A call fails at the limit; otherwise its body runs in the frame, and the chain of the caller comes back in any case. -/
theorem inCall_apply (name : String) (frame : Scope) (body : Run α) (m : State) :
    inCall name frame body m =
      if m.budget.limits.maxCallDepth ≤ m.budget.depth then
        .error (.fault (.limit (.callDepth m.budget.limits.maxCallDepth))) m
      else
        leaving (State.returned (m.scopes.take (scopeDepth name m.scopes))) (body (m.called name frame)) := by
  unfold inCall Budget.enterCall leaving State.called
  by_cases h : m.budget.limits.maxCallDepth ≤ m.budget.depth
  · rw [if_pos h, if_pos h]
  · rw [if_neg h, if_neg h]
    dsimp only
    generalize body { m with
      scopes := frame :: m.scopes.drop (scopeDepth name m.scopes)
      budget := { m.budget with depth := m.budget.depth + 1 } } = r
    cases r <;> rfl

/-! ## Whole runs -/

/-- Runs a program from the start with the given fuel. -/
def runFor (host : Host) (fuel : Nat) (limits : Limits) (answers : List String) (program : Program) : Result :=
  match runWith host fuel program (.start limits answers) with
  | .ok _ after => ⟨after, none⟩
  | .error halt after => ⟨after, some halt⟩

/-- A run is one with ample fuel. -/
theorem run_eq_runFor (host : Host) (limits : Limits) (answers : List String) (program : Program) :
    run host limits answers program = runFor host ampleFuel limits answers program := rfl

end HostScript.Machine
