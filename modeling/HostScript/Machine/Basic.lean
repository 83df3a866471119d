import HostScript.Budget
import HostScript.Program.Basic
import HostScript.Value.Access

/-!
# The state of a run

A run keeps the scopes around the statement being executed, the table of exports, its budget, and what it has exchanged with the
host. The scopes form a chain, innermost first. A function is called in the part of the chain that begins at the scope where it
is declared, so its body sees the variables of that scope and of those around it, and no others.
-/

namespace HostScript.Machine

open Program (Function)

/-- What a name stands for in a scope. -/
inductive Slot
  /-- Declared by a `let` that has not been executed. -/
  | uninitialized
  | value (v : Value)
  | function (f : Function)
  deriving Repr

/-- The names of one block or call. -/
abbrev Scope := List (String × Slot)

/-- Puts a slot into a scope, in place of one of the same name. -/
def Scope.set (name : String) (slot : Slot) : Scope → Scope
  | [] => [(name, slot)]
  | (here, old) :: rest => if here == name then (name, slot) :: rest else (here, old) :: Scope.set name slot rest

/-- What a run has exchanged with its host. -/
inductive Event
  /-- A value was written. -/
  | output (v : Value)
  /-- A line was asked for. -/
  | prompt (text : String)
  deriving Repr

/-- The values written among some events. -/
def Event.outputs (events : List Event) : List Value :=
  events.filterMap fun
    | .output v => some v
    | .prompt _ => none

/-- The prompts shown among some events. -/
def Event.prompts (events : List Event) : List String :=
  events.filterMap fun
    | .prompt text => some text
    | .output _ => none

/-- Where the lines that a script asks for come from. -/
inductive InputSource
  | scripted
  | console
  deriving DecidableEq, Repr

/-- What a run depends on besides its program: the kind of its input and the clock, which tells the time elapsed at each step. -/
structure Host where
  input : InputSource
  clock : Nat → Nat

/-- The state of a run. -/
structure State where
  /-- The scopes, innermost first. -/
  scopes : List Scope
  exports : Value
  budget : Budget
  /-- What has been exchanged with the host, the latest first. -/
  events : List Event
  /-- The lines that have not been asked for yet. -/
  answers : List String
  deriving Repr

/-- What has been exchanged with the host, in order. -/
def State.history (m : State) : List Event := m.events.reverse

/-- The state at the start of a run. -/
def State.start (limits : Limits) (answers : List String) : State :=
  ⟨[], Value.emptyObject, .start limits, [], answers⟩

/-- What can go wrong at a place of a program. -/
inductive Problem
  | usedUninitialized (name : String)
  | isFunction (name : String)
  | notDefined (name : String)
  | notFunction (name : String)
  | functionNotDefined (name : String)
  /-- The scope that declares a function has been released. A chain of scopes never loses it. -/
  | scopeReleased
  | assignedUninitialized (name : String)
  | assignsFunction (name : String)
  | arity (name : String) (expected got : Nat)
  | access (fault : Value.AccessFault)
  | arithmetic (fault : Number.Fault)
  | builtin (fault : Builtin.Fault)
  | operands (symbol left right : String)
  | incomparable (left right : String)
  | negated (typeName : String)
  | exportsType (typeName : String)
  | noAnswer (source : InputSource) (prompt : String)
  deriving Repr

/-- The wording of a problem. -/
def Problem.message : Problem → String
  | .usedUninitialized name => s!"`{name}` used before initialization"
  | .isFunction name => s!"`{name}` is a function"
  | .notDefined name => s!"`{name}` is not defined"
  | .notFunction name => s!"`{name}` is not a function"
  | .functionNotDefined name => s!"function `{name}` is not defined"
  | .scopeReleased => "function scope is no longer alive"
  | .assignedUninitialized name => s!"`{name}` assigned before initialization"
  | .assignsFunction name => s!"cannot assign to function `{name}`"
  | .arity name expected got => s!"`{name}` expects {expected} arguments. Got {got}"
  | .access fault => fault.message
  | .arithmetic fault => fault.message
  | .builtin fault => fault.message
  | .operands symbol left right => s!"cannot apply `{symbol}` to {left} and {right}"
  | .incomparable left right => s!"cannot compare {left} with {right}"
  | .negated typeName => s!"cannot negate {typeName}"
  | .exportsType typeName => s!"exports must be an object. Got {typeName}"
  | .noAnswer .scripted prompt => s!"no input available for prompt `{prompt}`"
  | .noAnswer .console prompt => s!"end of input while reading `{prompt}`"

/-- Why a run fails: a limit is hit, something goes wrong at a place of the program, or the outermost block ends in the middle of
a loop or function. -/
inductive Fault
  | limit (fault : LimitFault)
  | problem (span : Span) (problem : Problem)
  | strayFlow
  deriving Repr

/-- The message of a failed run. Limits have no place. -/
def Fault.message (source : Source) : Fault → String
  | .limit fault => fault.message
  | .problem span what => source.error span what.message
  | .strayFlow => "unexpected control flow at top level"

/-- The limit that a failed run has hit, if that is why it failed. -/
def Fault.limit? : Fault → Option LimitFault
  | .limit fault => some fault
  | _ => none

/-- Why a run stops early: it fails, or the fuel that bounds the recursion runs out. -/
inductive Halt
  | fault (fault : Fault)
  | outOfFuel
  deriving Repr

/-- A part of a run. It changes the state, also when it stops early. -/
abbrev Run (α : Type) := EStateM Halt State α

/-- How a statement ends. -/
inductive Flow
  | normal
  | break_
  | continue_
  | return_ (v : Value)
  deriving Repr

/-- Fails at a place of the program. -/
def failAt {α : Type} (span : Span) (problem : Problem) : Run α := throw (.fault (.problem span problem))

/-- Goes on with a result, or fails at a place of the program. -/
def locate {ε α : Type} (span : Span) (wrap : ε → Problem) : Except ε α → Run α
  | .ok a => pure a
  | .error e => failAt span (wrap e)

/-- Takes a step of the budget. -/
def step (host : Host) : Run Unit := do
  let m ← get
  let (budget, fault) := m.budget.step (host.clock (m.budget.steps + 1))
  set { m with budget }
  match fault with
  | none => return ()
  | some fault => throw (.fault (.limit fault))

/-- Records an exchange with the host. -/
def record (event : Event) : Run Unit := modify fun m => { m with events := event :: m.events }

/-- Asks the host for a line. -/
def ask (host : Host) (span : Span) (prompt : String) : Run String := do
  record (.prompt prompt)
  match (← get).answers with
  | [] => failAt span (.noAnswer host.input prompt)
  | answer :: rest =>
    modify fun m => { m with answers := rest }
    return answer

end HostScript.Machine
