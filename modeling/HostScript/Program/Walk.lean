import HostScript.Program.Resolve

/-!
# Resolving on one state

The resolution of `Program.ofModule` as it is done on one state that all parts of a script share: the names of the blocks that are open,
and the numbers of loops and functions that are. What is opened around a part of a script is closed behind it, also when the part is
refused. `WalkFault` says what fails otherwise.
-/

namespace HostScript.Program

open Script (Expr Stmt Ident Module Otherwise)

/-- What a walk over a script keeps: the alias of the host, the names of the blocks that are open from the innermost outwards, and how many
loops of the innermost function and how many functions are open. -/
structure Walk where
  host : Option String
  blocks : List Names
  loops : Nat
  functions : Nat

/-- What a walk fails at. -/
inductive WalkFault
  /-- The script is refused. -/
  | refused (fault : ResolveFault)
  /-- A name is declared outside of all blocks. -/
  | outside (span : Span)
  /-- A function is resolved as another statement. -/
  | function (span : Span)
  deriving DecidableEq, Repr

/-- A part of a walk. Its state is there after a failure, too. -/
abbrev Walking (α : Type) := EStateM WalkFault Walk α

/-- What a walk has opened, as the context of the part of the script where it stands. -/
def Walk.context (w : Walk) : Context := ⟨w.host, w.blocks, 0 < w.loops, 0 < w.functions⟩

/-- The state in one more block with the given names. -/
def Walk.within (w : Walk) (names : Names) : Walk := { w with blocks := names :: w.blocks }

namespace Walking

/-- Accepts or refuses what has been resolved. -/
def settle {α : Type} : Resolved α → Walking α
  | .ok a => return a
  | .error fault => throw (.refused fault)

/-- Resolves what only looks at its context. -/
def looking {α : Type} (resolve : Context → Resolved α) : Walking α := do settle (resolve (← get).context)

/-- Refuses the script at a span. -/
def refuse {α : Type} (span : Span) (problem : ResolveProblem) : Walking α := throw (.refused ⟨problem, span⟩)

/-- Does something between a change of the state and another change, which is made after a failure, too. -/
def around {α : Type} (enter leave : Walk → Walk) (inner : Walking α) : Walking α := fun w =>
  match inner (enter w) with
  | .ok a after => .ok a (leave after)
  | .error fault after => .error fault (leave after)

/-- Opens a block for something and closes it. -/
def inBlock {α : Type} : Walking α → Walking α :=
  around (·.within []) fun w => { w with blocks := w.blocks.tail }

/-- Opens a loop for something and closes it. -/
def inLoop {α : Type} : Walking α → Walking α :=
  around (fun w => { w with loops := w.loops + 1 }) fun w => { w with loops := w.loops - 1 }

/-- Opens a function for something and closes it. The loops around a function are put aside meanwhile. -/
def inFunction {α : Type} (inner : Walking α) : Walking α := fun w =>
  around (fun w => { w with loops := 0, functions := w.functions + 1 })
    (fun after => { after with loops := w.loops, functions := after.functions - 1 }) inner w

/-- Adds a declaration to the names of the innermost block. -/
def declare (ident : Ident) (binding : Binding) : Walking Unit := do
  let w ← get
  if w.context.isHost ident.name then refuse ident.span (.reservedName ident.name)
  else match w.blocks with
    | [] => throw (.outside ident.span)
    | names :: outer => do
      set { w with blocks := ((ident.name, binding) :: names) :: outer }
      if (names.lookup ident.name).isSome then refuse ident.span (.alreadyDeclared ident.name)

/-- Adds the declarations of statements to the names of the innermost block. -/
def hoist : List Stmt → Walking Unit
  | [] => return
  | .let_ _ name _ :: rest => do
    declare name .variable
    hoist rest
  | .function _ name params _ :: rest => do
    declare name (.function params.length)
    hoist rest
  | _ :: rest => hoist rest

/-- Resolves a block with the given parameters and statements, given how the statements are resolved. -/
def body (params : List Ident) (stmts : List Stmt) (inner : Walking (List Function × List Statement)) : Walking Block := inBlock do
  params.forM (declare · .param)
  hoist stmts
  let (functions, body) ← inner
  return .mk (declaredLocals stmts) functions body

mutual

/-- Resolves a statement. -/
def stmt : Stmt → Walking Statement
  | .let_ _ name value => do return .let_ name.name (← looking (resolveExpr · value))
  | .assign _ target value => do
    let place ← looking (resolvePlace · target.span [] target)
    return .assign place (← looking (resolveExpr · value))
  | .function span _ _ _ => throw (.function span)
  | .if_ _ cond body other => do
    let cond ← looking (resolveExpr · cond)
    let body ← block body
    return .if_ cond body (← otherwise other)
  | .while_ span cond body => do
    let cond ← looking (resolveExpr · cond)
    return .while_ span cond (← inLoop (block body))
  | .return_ span value => do
    if (← get).functions == 0 then refuse span .returnOutside
    else match value with
      | none => return .return_ none
      | some value => return .return_ (some (← looking (resolveExpr · value)))
  | .break_ span => do if (← get).loops == 0 then refuse span .breakOutside else return .break_
  | .continue_ span => do if (← get).loops == 0 then refuse span .continueOutside else return .continue_
  | .block body => do return .block (← block body)
  | .expr _ e => do return .expr (← looking (resolveExpr · e))

/-- Resolves statements in their order, and tells the functions from the others. -/
def stmts : List Stmt → Walking (List Function × List Statement)
  | [] => return ([], [])
  | .function span name params (.mk _ inner) :: rest => do
    let function := .mk span name.name (params.map (·.name)) (← inFunction (body params inner (stmts inner)))
    let (functions, others) ← stmts rest
    return (function :: functions, others)
  | s :: rest => do
    let s ← stmt s
    let (functions, others) ← stmts rest
    return (functions, s :: others)

/-- Resolves a block. -/
def block : Script.Block → Walking Block
  | .mk _ inner => body [] inner (stmts inner)

/-- Resolves what follows the block of an `if`. Another `if` becomes a block of its own. -/
def otherwise : Otherwise → Walking (Option Block)
  | .nothing => return none
  | .block body => do return some (← block body)
  | .elseIf _ cond body other => do
    let cond ← looking (resolveExpr · cond)
    let body ← block body
    return some (.mk [] [] [.if_ cond body (← otherwise other)])

end

/-- Resolves a script. No block is open around it. -/
def ofModule (m : Module) : Except WalkFault Program :=
  let host := m.host.map (·.host.name)
  match body [] m.stmts (stmts m.stmts) ⟨host, [], 0, 0⟩ with
  | .ok body _ => .ok ⟨host, body⟩
  | .error fault _ => .error fault

end Walking

end HostScript.Program
