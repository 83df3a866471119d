import HostScript.Program.Basic
import HostScript.Script.Parser

/-!
# Resolving names

`Program.ofModule` gives every name of a script its meaning and refuses a script in which a name has none. The declarations of a
block hold in all of it, whatever their order.
-/

namespace HostScript.Program

open Script (Expr Stmt Ident Module Otherwise)

/-- What a name is bound to. -/
inductive Binding
  | variable
  | param
  | function (arity : Nat)
  deriving DecidableEq, Repr

/-- The names declared in one block. -/
abbrev Names := List (String × Binding)

/-- What surrounds a part of a script: the alias of the host, the blocks around it from the innermost outwards, and whether it
stands inside a loop and inside a function. -/
structure Context where
  host : Option String
  blocks : List Names
  inLoop : Bool
  inFunction : Bool

/-- Why a script is refused. -/
inductive ResolveProblem
  | reservedName (name : String)
  | alreadyDeclared (name : String)
  | returnOutside
  | breakOutside
  | continueOutside
  | assignsCapability (name : String)
  | assignsFunction (name : String)
  | assignsHost (name : String)
  | undeclared (name : String)
  | invalidTarget
  | notCallableCapability (name : String)
  | capabilityArity (name : String)
  | arity (name : String) (expected got : Nat)
  | notFunction (name : String)
  | unknownFunction (name : String)
  | unnamedCallee
  | functionAsValue (name : String)
  | hostAsValue (name : String)
  | builtinAsValue (name : String)
  | unresolved (name : String)
  | capabilityAsValue (name : String)
  | unknownCapability (name : String)
  deriving DecidableEq, Repr

/-- The wording of a refusal. -/
def ResolveProblem.message : ResolveProblem → String
  | .reservedName name => s!"`{name}` is reserved for the host import"
  | .alreadyDeclared name => s!"`{name}` is already declared in this scope"
  | .returnOutside => "`return` outside of a function"
  | .breakOutside => "`break` outside of a loop"
  | .continueOutside => "`continue` outside of a loop"
  | .assignsCapability name => s!"cannot assign to host capability `{name}`"
  | .assignsFunction name => s!"cannot assign to function `{name}`"
  | .assignsHost name => s!"cannot assign to host alias `{name}`"
  | .undeclared name => s!"assignment to undeclared variable `{name}`"
  | .invalidTarget => "invalid assignment target"
  | .notCallableCapability name => s!"`{name}` is not a callable host capability"
  | .capabilityArity name => s!"`{name}` expects 1 argument"
  | .arity name expected got => s!"`{name}` expects {expected} arguments. Got {got}"
  | .notFunction name => s!"`{name}` is not a function"
  | .unknownFunction name => s!"unknown function `{name}`"
  | .unnamedCallee => "only named functions can be called"
  | .functionAsValue name => s!"function `{name}` cannot be used as a value"
  | .hostAsValue name => s!"host alias `{name}` cannot be used as a value"
  | .builtinAsValue name => s!"builtin `{name}` must be called"
  | .unresolved name => s!"unresolved name `{name}`"
  | .capabilityAsValue name => s!"host capability `{name}` must be called"
  | .unknownCapability name => s!"unknown host capability `{name}`"

/-- A refusal and where it is reported. -/
structure ResolveFault where
  problem : ResolveProblem
  span : Span
  deriving DecidableEq, Repr

/-- The result of resolving a part of a script. -/
abbrev Resolved (α : Type) := Except ResolveFault α

/-- Refuses a script at a span. -/
def refuse {α : Type} (span : Span) (problem : ResolveProblem) : Resolved α := .error ⟨problem, span⟩

namespace Context

/-- The name is the alias of the host. -/
def isHost (ctx : Context) (name : String) : Bool := ctx.host == some name

/-- The expression is the alias of the host. -/
def isHostVar (ctx : Context) : Expr → Bool
  | .var _ name => ctx.isHost name
  | _ => false

/-- What a name is bound to in the innermost block that declares it. -/
def lookup (ctx : Context) (name : String) : Option Binding := ctx.blocks.findSome? (·.lookup name)

/-- Adds a declaration to the names of a block. -/
def declare (ctx : Context) (names : Names) (ident : Ident) (binding : Binding) : Resolved Names :=
  if ctx.isHost ident.name then refuse ident.span (.reservedName ident.name)
  else if (names.lookup ident.name).isSome then refuse ident.span (.alreadyDeclared ident.name)
  else .ok ((ident.name, binding) :: names)

/-- Adds the declarations of statements to the names of a block. -/
def hoist (ctx : Context) (names : Names) : List Stmt → Resolved Names
  | [] => .ok names
  | .let_ _ name _ :: rest => do ctx.hoist (← ctx.declare names name .variable) rest
  | .function _ name params _ :: rest => do ctx.hoist (← ctx.declare names name (.function params.length)) rest
  | _ :: rest => ctx.hoist names rest

/-- The context inside a block with the given parameters and statements. -/
def enter (ctx : Context) (params : List Ident) (stmts : List Stmt) : Resolved Context := do
  let names ← params.foldlM (fun names p => ctx.declare names p .param) []
  let names ← ctx.hoist names stmts
  return { ctx with blocks := names :: ctx.blocks }

end Context

/-- The names that `let` declares in a row of statements. -/
def declaredLocals (stmts : List Stmt) : List String :=
  stmts.filterMap fun
    | .let_ _ name _ => some name.name
    | _ => none

/-- Resolves a name that stands as a value. -/
def resolveVar (ctx : Context) (span : Span) (name : String) : Resolved Expression :=
  match ctx.lookup name with
  | some .variable | some .param => .ok (.local_ span name)
  | some (.function _) => refuse span (.functionAsValue name)
  | none =>
    if ctx.isHost name then refuse span (.hostAsValue name)
    else if (Builtin.ofName? name).isSome then refuse span (.builtinAsValue name)
    else refuse span (.unresolved name)

/-- Resolves a member of the host that stands as a value. -/
def resolveHostMember (field : Ident) : Resolved Expression :=
  if field.name == "exports" then .ok .exports
  else if field.name == "input" || field.name == "output" then refuse field.span (.capabilityAsValue field.name)
  else refuse field.span (.unknownCapability field.name)

/-- What a call by name calls, given the number of arguments. -/
def resolveCallee (ctx : Context) (span nameSpan : Span) (name : String) (argCount : Nat) :
    Resolved (List Expression → Expression) :=
  match ctx.lookup name with
  | some (.function arity) =>
    if argCount == arity then .ok (.call span name) else refuse span (.arity name arity argCount)
  | some _ => refuse nameSpan (.notFunction name)
  | none => match Builtin.ofName? name with
    | none => refuse nameSpan (.unknownFunction name)
    | some function => match function.arity? with
      | none => .ok (.builtin span function)
      | some arity => if argCount == arity then .ok (.builtin span function) else refuse span (.arity name arity argCount)

/-- What a call of a member of the host calls, given the number of arguments. -/
def resolveCapability (span : Span) (field : Ident) (argCount : Nat) : Resolved (Expression → Expression) :=
  if field.name != "output" && field.name != "input" then refuse field.span (.notCallableCapability field.name)
  else if argCount != 1 then refuse span (.capabilityArity field.name)
  else .ok (if field.name == "output" then .output span else .input span)

mutual

/-- Resolves an expression. -/
def resolveExpr (ctx : Context) : Expr → Resolved Expression
  | .null _ => .ok (.const .null)
  | .bool _ b => .ok (.const (.bool b))
  | .number _ n => .ok (.const (.number n))
  | .string _ text => .ok (.const (.string text))
  | .rawString _ text => .ok (.const (.string text))
  | .var span name => resolveVar ctx span name
  | .array _ items => do return .array (← resolveExprs ctx items)
  | .object _ fields => do return .object (← resolveFields ctx fields)
  | .call span callee args =>
    match callee with
    | .var nameSpan name => do
      let call ← resolveCallee ctx span nameSpan name args.length
      return call (← resolveExprs ctx args)
    | .member memberSpan base field =>
      if ctx.isHostVar base then do
        let call ← resolveCapability span field args.length
        let args ← resolveExprs ctx args
        return call (args.headD (.const .null))
      else do
        let _ ← resolveExpr ctx base
        refuse memberSpan .unnamedCallee
    | other => do
      let _ ← resolveExpr ctx other
      refuse other.span .unnamedCallee
  | .unary span op operand => do return .unary span op (← resolveExpr ctx operand)
  | .member span base field =>
    if ctx.isHostVar base then resolveHostMember field
    else do return .member span (← resolveExpr ctx base) field.name
  | .index span base key => do
    let base ← resolveExpr ctx base
    return .index span base (← resolveExpr ctx key)
  | .binary span op left right => do
    let left ← resolveExpr ctx left
    let right ← resolveExpr ctx right
    return match op with
      | .arith op => .arith span op left right
      | .compare op => .compare span op left right
      | .logic op => .logic op left right

/-- Resolves expressions from left to right. -/
def resolveExprs (ctx : Context) : List Expr → Resolved (List Expression)
  | [] => .ok []
  | e :: rest => do
    let e ← resolveExpr ctx e
    return e :: (← resolveExprs ctx rest)

/-- Resolves the fields of an object, each key before its value. -/
def resolveFields (ctx : Context) : List (Span × Expr × Expr) → Resolved (List (Expression × Expression))
  | [] => .ok []
  | (_, key, value) :: rest => do
    let key ← resolveExpr ctx key
    let value ← resolveExpr ctx value
    return (key, value) :: (← resolveFields ctx rest)

end

/-- Resolves the target of an assignment with the given span, from the last step of its path inwards. `path` holds the steps that
have been resolved. -/
def resolvePlace (ctx : Context) (whole : Span) (path : List PathSegment) : Expr → Resolved Place
  | .member _ base field =>
    if ctx.isHostVar base then
      if field.name == "exports" then .ok (.exports whole path)
      else refuse field.span (.assignsCapability field.name)
    else resolvePlace ctx whole (.field field.name :: path) base
  | .index _ base key => do resolvePlace ctx whole (.index (← resolveExpr ctx key) :: path) base
  | .var span name =>
    match ctx.lookup name with
    | some .variable | some .param => .ok (.local_ span name path)
    | some (.function _) => refuse span (.assignsFunction name)
    | none => if ctx.isHost name then refuse span (.assignsHost name) else refuse span (.undeclared name)
  | e => refuse e.span .invalidTarget

mutual

/-- Resolves a statement that is no declaration of a function. -/
def resolveStmt (ctx : Context) : Stmt → Resolved (Option Statement)
  | .let_ _ name value => do return some (.let_ name.name (← resolveExpr ctx value))
  | .assign _ target value => do
    let place ← resolvePlace ctx target.span [] target
    return some (.assign place (← resolveExpr ctx value))
  | .function _ _ _ _ => .ok none
  | .if_ _ cond body otherwise => do
    let cond ← resolveExpr ctx cond
    let body ← resolveBlock ctx body
    return some (.if_ cond body (← resolveOtherwise ctx otherwise))
  | .while_ span cond body => do
    let cond ← resolveExpr ctx cond
    return some (.while_ span cond (← resolveBlock { ctx with inLoop := true } body))
  | .return_ span value => do
    if !ctx.inFunction then refuse span .returnOutside
    match value with
    | none => return some (.return_ none)
    | some value => return some (.return_ (some (← resolveExpr ctx value)))
  | .break_ span => if ctx.inLoop then .ok (some .break_) else refuse span .breakOutside
  | .continue_ span => if ctx.inLoop then .ok (some .continue_) else refuse span .continueOutside
  | .block body => do return some (.block (← resolveBlock ctx body))
  | .expr _ e => do return some (.expr (← resolveExpr ctx e))

/-- Resolves a declaration of a function. Its body is in no loop. -/
def resolveFunction (ctx : Context) : Stmt → Resolved (Option Function)
  | .function span name params (.mk _ stmts) => do
    let inner ← { ctx with inLoop := false, inFunction := true }.enter params stmts
    let (functions, body) ← resolveStmts inner stmts
    let block : Block := .mk (declaredLocals stmts) functions body
    return some (.mk span name.name (params.map (·.name)) block)
  | _ => .ok none

/-- Resolves statements in their order, and tells the functions from the others. -/
def resolveStmts (ctx : Context) : List Stmt → Resolved (List Function × List Statement)
  | [] => .ok ([], [])
  | s :: rest => do
    let function ← resolveFunction ctx s
    let stmt ← resolveStmt ctx s
    let (functions, stmts) ← resolveStmts ctx rest
    return (function.toList ++ functions, stmt.toList ++ stmts)

/-- Resolves a block. -/
def resolveBlock (ctx : Context) : Script.Block → Resolved Block
  | .mk _ stmts => do
    let (functions, body) ← resolveStmts (← ctx.enter [] stmts) stmts
    return .mk (declaredLocals stmts) functions body

/-- Resolves what follows the block of an `if`. Another `if` becomes a block of its own. -/
def resolveOtherwise (ctx : Context) : Otherwise → Resolved (Option Block)
  | .nothing => .ok none
  | .block body => do return some (← resolveBlock ctx body)
  | .elseIf _ cond body otherwise => do
    let cond ← resolveExpr ctx cond
    let body ← resolveBlock ctx body
    return some (.mk [] [] [.if_ cond body (← resolveOtherwise ctx otherwise)])

end

/-- Resolves a script. -/
def ofModule (m : Module) : Resolved Program := do
  let ctx : Context := ⟨m.host.map (·.host.name), [], false, false⟩
  let (functions, body) ← resolveStmts (← ctx.enter [] m.stmts) m.stmts
  return ⟨ctx.host, .mk (declaredLocals m.stmts) functions body⟩

/-- Why a text is no program. -/
inductive CompileFault
  | parse (fault : Script.ParseFault)
  | resolve (fault : ResolveFault)
  deriving DecidableEq, Repr

/-- The diagnostic of a fault. -/
def CompileFault.message (source : Source) : CompileFault → String
  | .parse fault => fault.message source
  | .resolve fault => source.error fault.span fault.problem.message

/-- Parses and resolves a source. -/
def ofSource (source : Source) : Except CompileFault Program := do
  let m ← (Module.ofSource source).mapError .parse
  (ofModule m).mapError .resolve

end HostScript.Program
