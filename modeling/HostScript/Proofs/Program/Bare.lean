import Mathlib
import HostScript.Proofs.Program.Alike

/-!
# Resolving without spans

Spans decide where a refusal is reported and nothing else: a script and the one without its spans are both refused, or both resolve to the
same program up to spans (`ofModule_bare`). All parts of a script are compared in contexts that are alike, so that the same lemmas say that
nothing else of a context counts.
-/

namespace HostScript.Program

/-! ## Programs without spans -/

mutual

/-- An expression without its spans. -/
def Expression.bare : Expression → Expression
  | .const v => .const v
  | .local_ _ name => .local_ .nowhere name
  | .array items => .array (Expression.bares items)
  | .object fields => .object (Expression.bareFields fields)
  | .unary _ op operand => .unary .nowhere op operand.bare
  | .arith _ op left right => .arith .nowhere op left.bare right.bare
  | .compare _ op left right => .compare .nowhere op left.bare right.bare
  | .logic op left right => .logic op left.bare right.bare
  | .member _ base field => .member .nowhere base.bare field
  | .index _ base key => .index .nowhere base.bare key.bare
  | .call _ name args => .call .nowhere name (Expression.bares args)
  | .builtin _ function args => .builtin .nowhere function (Expression.bares args)
  | .output _ value => .output .nowhere value.bare
  | .input _ prompt => .input .nowhere prompt.bare
  | .exports => .exports

/-- Expressions without their spans. -/
def Expression.bares : List Expression → List Expression
  | [] => []
  | e :: rest => e.bare :: Expression.bares rest

/-- The fields of an object without their spans. -/
def Expression.bareFields : List (Expression × Expression) → List (Expression × Expression)
  | [] => []
  | (key, value) :: rest => (key.bare, value.bare) :: Expression.bareFields rest

end

/-- A step of a path without its spans. -/
def PathSegment.bare : PathSegment → PathSegment
  | .field name => .field name
  | .index key => .index key.bare

/-- A place without its spans. -/
def Place.bare : Place → Place
  | .local_ _ name path => .local_ .nowhere name (path.map PathSegment.bare)
  | .exports _ path => .exports .nowhere (path.map PathSegment.bare)

mutual

/-- A statement without its spans. -/
def Statement.bare : Statement → Statement
  | .let_ name value => .let_ name value.bare
  | .assign target value => .assign target.bare value.bare
  | .expr e => .expr e.bare
  | .if_ cond body none => .if_ cond.bare body.bare none
  | .if_ cond body (some otherwise) => .if_ cond.bare body.bare (some otherwise.bare)
  | .while_ _ cond body => .while_ .nowhere cond.bare body.bare
  | .return_ value => .return_ (value.map Expression.bare)
  | .break_ => .break_
  | .continue_ => .continue_
  | .block body => .block body.bare

/-- A block without its spans. -/
def Block.bare : Block → Block
  | .mk locals functions stmts => .mk locals (Function.bares functions) (Statement.bares stmts)

/-- A function without its spans. -/
def Function.bare : Function → Function
  | .mk _ name params body => .mk .nowhere name params body.bare

/-- Functions without their spans. -/
def Function.bares : List Function → List Function
  | [] => []
  | f :: rest => f.bare :: Function.bares rest

/-- Statements without their spans. -/
def Statement.bares : List Statement → List Statement
  | [] => []
  | s :: rest => s.bare :: Statement.bares rest

end

end HostScript.Program

/-- A program without its spans. -/
def HostScript.Program.bare (program : HostScript.Program) : HostScript.Program := { program with body := program.body.bare }

/-- The statement declares a function. -/
def HostScript.Script.Stmt.isFunction : HostScript.Script.Stmt → Bool
  | .function _ _ _ _ => true
  | _ => false

namespace HostScript.Program

open Script (Expr Stmt Ident Module Otherwise)

/-! ## Expressions -/

section Resolving

variable {ctx ctx' : Context}

/-- An expression without spans stands nowhere. -/
theorem Expr.span_bare (e : Expr) : e.bare.span = .nowhere := by cases e <;> rfl

/-- In contexts that are alike a variable is resolved alike. -/
theorem resolveVar_bare (h : ctx.Alike ctx') (span : Span) (name : String) :
    AgreeOn Expression.bare (resolveVar ctx span name) (resolveVar ctx' .nowhere name) := by
  unfold resolveVar
  rw [h.lookup, h.isHost]
  split
  · exact .accepted rfl
  · exact .accepted rfl
  · exact .refuse ..
  · exact .ite (.refuse ..) (.ite (.refuse ..) (.refuse ..))

/-- A member of the host is resolved by its name. -/
theorem resolveHostMember_bare (field : Ident) : AgreeOn Expression.bare (resolveHostMember field) (resolveHostMember field.bare) := by
  unfold resolveHostMember
  exact .ite (.accepted rfl) (.ite (.refuse ..) (.refuse ..))

/-- What is called is the same up to spans. -/
theorem resolveCallee_bare (h : ctx.Alike ctx') (span nameSpan : Span) (name : String) (count : Nat) :
    Matched (fun call call' => ∀ args args', Expression.bares args = Expression.bares args' → (call args).bare = (call' args').bare)
      (resolveCallee ctx span nameSpan name count) (resolveCallee ctx' .nowhere .nowhere name count) := by
  unfold resolveCallee
  rw [h.lookup]
  split
  · exact .ite (.accepted fun _ _ hargs => congrArg (Expression.call .nowhere name) hargs) (.refuse ..)
  · exact .refuse ..
  · split
    · exact .refuse ..
    · rename_i function _
      split
      · exact .accepted fun _ _ hargs => congrArg (Expression.builtin .nowhere function) hargs
      · exact .ite (.accepted fun _ _ hargs => congrArg (Expression.builtin .nowhere function) hargs) (.refuse ..)

/-- A capability of the host is resolved by its name and by the number of its arguments. -/
theorem resolveCapability_bare (span : Span) (field : Ident) (count : Nat) :
    Matched (fun call call' => ∀ arg arg' : Expression, arg.bare = arg'.bare → (call arg).bare = (call' arg').bare)
      (resolveCapability span field count) (resolveCapability .nowhere field.bare count) := by
  unfold resolveCapability
  refine .ite (.refuse ..) (.ite (.refuse ..) (.accepted fun arg arg' harg => ?_))
  by_cases houtput : field.name == "output"
  · rw [if_pos houtput, if_pos (show field.bare.name == "output" from houtput)]
    exact congrArg (Expression.output .nowhere) harg
  · rw [if_neg houtput, if_neg (show ¬field.bare.name == "output" from houtput)]
    exact congrArg (Expression.input .nowhere) harg

/-- Without their spans there are as many expressions. -/
theorem length_bares (es : List Expr) : (Expr.bares es).length = es.length := by
  induction es with
  | nil => rfl
  | cons e es ih => exact congrArg (· + 1) ih

/-- Lists that agree up to spans begin with expressions that do, or with nothing. -/
theorem headD_bares {es es' : List Expression} (h : Expression.bares es = Expression.bares es') :
    (es.headD (.const .null)).bare = (es'.headD (.const .null)).bare := by
  cases es with
  | nil =>
    cases es' with
    | nil => rfl
    | cons e' es' => cases h
  | cons e es =>
    cases es' with
    | nil => cases h
    | cons e' es' => exact (List.cons.inj h).1

mutual

/-- An expression and the one without its spans resolve to the same up to spans. -/
theorem resolveExpr_bare (h : ctx.Alike ctx') : (e : Expr) → AgreeOn Expression.bare (resolveExpr ctx e) (resolveExpr ctx' e.bare)
  | .null _ | .bool _ _ | .number _ _ | .string _ _ | .rawString _ _ => .accepted rfl
  | .var span name => resolveVar_bare h span name
  | .array _ items => by
    rw [Expr.bare, resolveExpr, resolveExpr]
    exact (resolveExprs_bare h items).bind fun _ _ hitems => .accepted (congrArg Expression.array hitems)
  | .object _ fields => by
    rw [Expr.bare, resolveExpr, resolveExpr]
    exact (resolveFields_bare h fields).bind fun _ _ hfields => .accepted (congrArg Expression.object hfields)
  | .call span callee args => by
    have hargs := resolveExprs_bare h args
    cases callee with
    | var nameSpan name =>
      rw [Expr.bare, Expr.bare, resolveExpr, resolveExpr, length_bares]
      exact (resolveCallee_bare h span nameSpan name args.length).bind fun _ _ hcall =>
        hargs.bind fun _ _ hargs => .accepted (hcall _ _ hargs)
    | member memberSpan base field =>
      rw [Expr.bare, Expr.bare, resolveExpr, resolveExpr, length_bares, h.isHostVar]
      refine .ite ?_ ?_
      · exact (resolveCapability_bare span field args.length).bind fun _ _ hcall =>
          hargs.bind fun _ _ hargs => .accepted (hcall _ _ (headD_bares hargs))
      · exact (resolveExpr_bare h base).bind fun _ _ _ => .refuse ..
    | _ =>
      unfold resolveExpr
      exact (resolveExpr_bare h _).bind fun _ _ _ => .refuse ..
  | .unary span op operand => by
    rw [Expr.bare, resolveExpr, resolveExpr]
    exact (resolveExpr_bare h operand).bind fun _ _ hoperand => .accepted (congrArg (Expression.unary .nowhere op) hoperand)
  | .member span base field => by
    rw [Expr.bare, resolveExpr, resolveExpr, h.isHostVar]
    exact .ite (resolveHostMember_bare field)
      ((resolveExpr_bare h base).bind fun _ _ hbase => .accepted (congrArg (Expression.member .nowhere · field.name) hbase))
  | .index span base key => by
    rw [Expr.bare, resolveExpr, resolveExpr]
    exact (resolveExpr_bare h base).bind fun _ _ hbase => (resolveExpr_bare h key).bind fun _ _ hkey =>
      .accepted (congrArg₂ (Expression.index .nowhere) hbase hkey)
  | .binary span op left right => by
    rw [Expr.bare, resolveExpr, resolveExpr]
    refine (resolveExpr_bare h left).bind fun _ _ hleft => (resolveExpr_bare h right).bind fun _ _ hright => .accepted ?_
    cases op with
    | arith op => exact congrArg₂ (Expression.arith .nowhere op) hleft hright
    | compare op => exact congrArg₂ (Expression.compare .nowhere op) hleft hright
    | logic op => exact congrArg₂ (Expression.logic op) hleft hright

/-- Expressions are resolved alike with and without their spans. -/
theorem resolveExprs_bare (h : ctx.Alike ctx') : (es : List Expr) →
    AgreeOn Expression.bares (resolveExprs ctx es) (resolveExprs ctx' (Expr.bares es))
  | [] => .accepted rfl
  | e :: es => by
    rw [Expr.bares, resolveExprs, resolveExprs]
    exact (resolveExpr_bare h e).bind fun _ _ he => (resolveExprs_bare h es).bind fun _ _ hes => .accepted (congrArg₂ List.cons he hes)

/-- Fields are resolved alike with and without their spans. -/
theorem resolveFields_bare (h : ctx.Alike ctx') : (fields : List (Span × Expr × Expr)) →
    AgreeOn Expression.bareFields (resolveFields ctx fields) (resolveFields ctx' (Expr.bareFields fields))
  | [] => .accepted rfl
  | (_, key, value) :: fields => by
    rw [Expr.bareFields, resolveFields, resolveFields]
    exact (resolveExpr_bare h key).bind fun _ _ hkey => (resolveExpr_bare h value).bind fun _ _ hvalue =>
      (resolveFields_bare h fields).bind fun _ _ hfields => .accepted (congrArg₂ List.cons (congrArg₂ Prod.mk hkey hvalue) hfields)

end

/-! ## Places -/

/-- A target and the one without its spans resolve to the same up to spans. -/
theorem resolvePlace_bare (h : ctx.Alike ctx') (whole : Span) : (e : Expr) → ∀ {path path' : List PathSegment},
    path.map PathSegment.bare = path'.map PathSegment.bare →
    AgreeOn Place.bare (resolvePlace ctx whole path e) (resolvePlace ctx' .nowhere path' e.bare)
  | .member span base field, path, path', hpath => by
    rw [Expr.bare, resolvePlace, resolvePlace, h.isHostVar]
    refine .ite (.ite (.accepted (congrArg (Place.exports .nowhere) hpath)) (.refuse ..)) ?_
    exact resolvePlace_bare h whole base (congrArg₂ List.cons rfl hpath)
  | .index span base key, path, path', hpath => by
    rw [Expr.bare, resolvePlace, resolvePlace]
    refine (resolveExpr_bare h key).bind fun _ _ hkey => resolvePlace_bare h whole base ?_
    exact congrArg₂ List.cons (congrArg PathSegment.index hkey) hpath
  | .var span name, path, path', hpath => by
    rw [Expr.bare, resolvePlace, resolvePlace, h.lookup, h.isHost]
    split
    · exact .accepted (congrArg (Place.local_ .nowhere name) hpath)
    · exact .accepted (congrArg (Place.local_ .nowhere name) hpath)
    · exact .refuse ..
    · exact .ite (.refuse ..) (.refuse ..)
  | .null _, _, _, _ | .bool _ _, _, _, _ | .number _ _, _, _, _ | .string _ _, _, _, _ | .rawString _ _, _, _, _
  | .array _ _, _, _, _ | .object _ _, _, _, _ | .call _ _ _, _, _, _ | .unary _ _ _, _, _, _ | .binary _ _ _ _, _, _, _ => .refuse ..

end Resolving

/-! ## Blocks -/

variable {ctx ctx' : Context} {params params' : List Ident} {stmts stmts' : List Stmt}

/-- Resolves the parameters and statements of a block or of a function's body. -/
def resolveBody (ctx : Context) (params : List Ident) (stmts : List Stmt) : Resolved Block := do
  let (functions, body) ← resolveStmts (← ctx.enter params stmts) stmts
  return .mk (declaredLocals stmts) functions body

/-- A block is resolved as its body, without further names. -/
theorem resolveBlock_eq (ctx : Context) (span : Span) (stmts : List Stmt) :
    resolveBlock ctx (.mk span stmts) = resolveBody ctx [] stmts := by
  rw [resolveBlock, resolveBody]

/-- A function is resolved as its body, with the names of its parameters and outside of any loop. -/
theorem resolveFunction_eq (ctx : Context) (span inner : Span) (name : Ident) (params : List Ident) (stmts : List Stmt) :
    resolveFunction ctx (.function span name params (.mk inner stmts)) =
      resolveBody { ctx with inLoop := false, inFunction := true } params stmts >>= fun body =>
        .ok (some (.mk span name.name (params.map Ident.name) body)) := by
  rw [resolveFunction, resolveBody]
  simp only [bind_assoc]
  rfl

/-- A script is resolved as its statements, where only the host is known. -/
theorem ofModule_eq (m : Module) :
    ofModule m = resolveBody ⟨m.host.map (·.host.name), [], false, false⟩ [] m.stmts >>= fun body =>
      .ok ⟨m.host.map (·.host.name), body⟩ := by
  rw [ofModule, resolveBody]
  simp only [bind_assoc]
  rfl

/-- A function is no statement of the body. -/
theorem resolveStmt_of_function {s : Stmt} (h : s.isFunction = true) : resolveStmt ctx s = .ok none := by
  cases s with
  | function span name params body => rw [resolveStmt]
  | _ => cases h

/-- No other statement is a function. -/
theorem resolveFunction_of_other {s : Stmt} (h : s.isFunction = false) : resolveFunction ctx s = .ok none := by
  cases s with
  | function span name params body => cases h
  | _ => rfl

/-- The functions and statements of a block without their spans. -/
def bareParts : List Function × List Statement → List Function × List Statement := Prod.map Function.bares Statement.bares

/-- Taking the spans out of functions is done one by one. -/
theorem Function.bares_eq_map (fs : List Function) : Function.bares fs = fs.map Function.bare := by
  induction fs with
  | nil => rfl
  | cons f fs ih => exact congrArg _ ih

/-- Taking the spans out of statements is done one by one. -/
theorem Statement.bares_eq_map (ss : List Statement) : Statement.bares ss = ss.map Statement.bare := by
  induction ss with
  | nil => rfl
  | cons s ss ih => exact congrArg _ ih

/-- What a statement resolves to is put in front of what the others resolve to. -/
theorem bareParts_cons {function function' : Option Function} {stmt stmt' : Option Statement}
    {parts parts' : List Function × List Statement}
    (hfunction : function.map Function.bare = function'.map Function.bare) (hstmt : stmt.map Statement.bare = stmt'.map Statement.bare)
    (hparts : bareParts parts = bareParts parts') :
    bareParts (function.toList ++ parts.1, stmt.toList ++ parts.2) =
      bareParts (function'.toList ++ parts'.1, stmt'.toList ++ parts'.2) := by
  obtain ⟨hfunctions, hbody⟩ := Prod.mk.inj hparts
  rw [Function.bares_eq_map, Function.bares_eq_map] at hfunctions
  rw [Statement.bares_eq_map, Statement.bares_eq_map] at hbody
  unfold bareParts
  rw [Prod.map_apply, Prod.map_apply, Function.bares_eq_map, Function.bares_eq_map, Statement.bares_eq_map, Statement.bares_eq_map]
  simp only [List.map_append, hfunctions, hbody, ← Option.toList_map, hfunction, hstmt]

/-- Statements resolve to the same up to spans if one after the other does. -/
theorem resolveStmts_agree {s s' : Stmt}
    (hfunction : AgreeOn (Option.map Function.bare) (resolveFunction ctx s) (resolveFunction ctx' s'))
    (hstmt : AgreeOn (Option.map Statement.bare) (resolveStmt ctx s) (resolveStmt ctx' s'))
    (hrest : AgreeOn bareParts (resolveStmts ctx stmts) (resolveStmts ctx' stmts')) :
    AgreeOn bareParts (resolveStmts ctx (s :: stmts)) (resolveStmts ctx' (s' :: stmts')) := by
  rw [resolveStmts, resolveStmts]
  exact hfunction.bind fun _ _ hfunction => hstmt.bind fun _ _ hstmt => hrest.bind fun _ _ hparts =>
    .accepted (bareParts_cons hfunction hstmt hparts)

/-- Blocks that declare the same resolve to the same up to spans if their statements do in contexts that are alike. -/
theorem resolveBody_agree (h : ctx.Alike ctx') (hperm : (entriesOf params stmts).Perm (entriesOf params' stmts'))
    (hlocals : declaredLocals stmts = declaredLocals stmts')
    (hstmts : ∀ {inner inner' : Context}, inner.Alike inner' →
      AgreeOn bareParts (resolveStmts inner stmts) (resolveStmts inner' stmts')) :
    AgreeOn Block.bare (resolveBody ctx params stmts) (resolveBody ctx' params' stmts') := by
  unfold resolveBody
  refine (enter_alike h hperm).bind fun _ _ hinner => (hstmts hinner).bind fun parts parts' hparts => .accepted ?_
  obtain ⟨hfunctions, hbody⟩ := Prod.mk.inj hparts
  rw [Block.bare, Block.bare, hlocals, hfunctions, hbody]

/-- The same names are declared without spans. -/
theorem declarations_bares (stmts : List Stmt) : declarations (Stmt.bares stmts) = declarations stmts := by
  induction stmts with
  | nil => rfl
  | cons s stmts ih =>
    cases s with
    | let_ span name value => exact congrArg (List.cons (name.name, Binding.variable)) ih
    | function span name params body =>
      change (name.name, Binding.function (params.map Ident.bare).length) :: declarations (Stmt.bares stmts) = _
      rw [List.length_map, ih]
      rfl
    | _ => exact ih

/-- The same variables are declared without spans. -/
theorem declaredLocals_bares (stmts : List Stmt) : declaredLocals (Stmt.bares stmts) = declaredLocals stmts := by
  induction stmts with
  | nil => rfl
  | cons s stmts ih =>
    cases s with
    | let_ span name value => exact congrArg (List.cons name.name) ih
    | _ => exact ih

/-- A body begins with the same names without spans. -/
theorem entriesOf_bares (params : List Ident) (stmts : List Stmt) :
    entriesOf (params.map Ident.bare) (Stmt.bares stmts) = entriesOf params stmts := by
  rw [entriesOf, entriesOf, declarations_bares, List.map_map]
  rfl

/-! ## Statements -/

/-- The body of a block and the one without its spans resolve to the same up to spans if the statements do. -/
theorem resolveBody_bare (h : ctx.Alike ctx')
    (hstmts : ∀ {inner inner' : Context}, inner.Alike inner' →
      AgreeOn bareParts (resolveStmts inner stmts) (resolveStmts inner' (Stmt.bares stmts))) :
    AgreeOn Block.bare (resolveBody ctx params stmts) (resolveBody ctx' (params.map Ident.bare) (Stmt.bares stmts)) :=
  resolveBody_agree h (by rw [entriesOf_bares]) (declaredLocals_bares stmts).symm hstmts

/-- An `if` is made up of its parts. -/
theorem Statement.bare_if {cond cond' : Expression} {body body' : Block} {otherwise otherwise' : Option Block}
    (hcond : cond.bare = cond'.bare) (hbody : body.bare = body'.bare) (hotherwise : otherwise.map Block.bare = otherwise'.map Block.bare) :
    (Statement.if_ cond body otherwise).bare = (Statement.if_ cond' body' otherwise').bare := by
  have hbare : ∀ (cond : Expression) (body : Block) (otherwise : Option Block),
      (Statement.if_ cond body otherwise).bare = .if_ cond.bare body.bare (otherwise.map Block.bare) := by
    rintro cond body (_ | _) <;> rfl
  rw [hbare, hbare, hcond, hbody, hotherwise]

/-! A part with blocks in it resolves to the same up to spans if its own parts do. -/

section Parts

variable {span span' inner inner' : Span} {name : String} {cond cond' : Expr} {body body' : Script.Block} {otherwise otherwise' : Otherwise}

/-- Blocks are resolved alike if their bodies are. -/
theorem resolveBlock_agree (h : AgreeOn Block.bare (resolveBody ctx [] stmts) (resolveBody ctx' [] stmts')) :
    AgreeOn Block.bare (resolveBlock ctx (.mk inner stmts)) (resolveBlock ctx' (.mk inner' stmts')) := by
  rwa [resolveBlock_eq, resolveBlock_eq]

/-- Functions are resolved alike if their parameters have the same names and their bodies are resolved alike. -/
theorem resolveFunction_agree {nameSpan nameSpan' : Span} (hparams : params.map Ident.name = params'.map Ident.name)
    (h : AgreeOn Block.bare (resolveBody { ctx with inLoop := false, inFunction := true } params stmts)
      (resolveBody { ctx' with inLoop := false, inFunction := true } params' stmts')) :
    AgreeOn (Option.map Function.bare) (resolveFunction ctx (.function span ⟨nameSpan, name⟩ params (.mk inner stmts)))
      (resolveFunction ctx' (.function span' ⟨nameSpan', name⟩ params' (.mk inner' stmts'))) := by
  rw [resolveFunction_eq, resolveFunction_eq, hparams]
  exact h.bind fun _ _ hbody => .accepted (congrArg (some <| Function.mk .nowhere name (params'.map Ident.name) ·) hbody)

/-- An `if` is resolved alike if its condition and both of its branches are. -/
theorem resolveIf_agree (hcond : AgreeOn Expression.bare (resolveExpr ctx cond) (resolveExpr ctx' cond'))
    (hbody : AgreeOn Block.bare (resolveBlock ctx body) (resolveBlock ctx' body'))
    (hotherwise : AgreeOn (Option.map Block.bare) (resolveOtherwise ctx otherwise) (resolveOtherwise ctx' otherwise')) :
    AgreeOn (Option.map Statement.bare) (resolveStmt ctx (.if_ span cond body otherwise))
      (resolveStmt ctx' (.if_ span' cond' body' otherwise')) := by
  rw [resolveStmt, resolveStmt]
  exact hcond.bind fun _ _ hcond => hbody.bind fun _ _ hbody => hotherwise.bind fun _ _ hotherwise =>
    .accepted (congrArg some (Statement.bare_if hcond hbody hotherwise))

/-- A further `if` is resolved alike if its condition and both of its branches are. -/
theorem resolveElseIf_agree (hcond : AgreeOn Expression.bare (resolveExpr ctx cond) (resolveExpr ctx' cond'))
    (hbody : AgreeOn Block.bare (resolveBlock ctx body) (resolveBlock ctx' body'))
    (hotherwise : AgreeOn (Option.map Block.bare) (resolveOtherwise ctx otherwise) (resolveOtherwise ctx' otherwise')) :
    AgreeOn (Option.map Block.bare) (resolveOtherwise ctx (.elseIf span cond body otherwise))
      (resolveOtherwise ctx' (.elseIf span' cond' body' otherwise')) := by
  rw [resolveOtherwise, resolveOtherwise]
  exact hcond.bind fun _ _ hcond => hbody.bind fun _ _ hbody => hotherwise.bind fun _ _ hotherwise =>
    .accepted (congrArg (fun s => some (Block.mk [] [] [s])) (Statement.bare_if hcond hbody hotherwise))

/-- What stands behind `else` is resolved alike if its block is. -/
theorem resolveElse_agree (hbody : AgreeOn Block.bare (resolveBlock ctx body) (resolveBlock ctx' body')) :
    AgreeOn (Option.map Block.bare) (resolveOtherwise ctx (.block body)) (resolveOtherwise ctx' (.block body')) := by
  rw [resolveOtherwise, resolveOtherwise]
  exact hbody.bind fun _ _ hbody => .accepted (congrArg some hbody)

/-- A loop is resolved alike if its condition and its body are. -/
theorem resolveWhile_agree (hcond : AgreeOn Expression.bare (resolveExpr ctx cond) (resolveExpr ctx' cond'))
    (hbody : AgreeOn Block.bare (resolveBlock { ctx with inLoop := true } body) (resolveBlock { ctx' with inLoop := true } body')) :
    AgreeOn (Option.map Statement.bare) (resolveStmt ctx (.while_ span cond body)) (resolveStmt ctx' (.while_ span' cond' body')) := by
  rw [resolveStmt, resolveStmt]
  exact hcond.bind fun _ _ hcond => hbody.bind fun _ _ hbody =>
    .accepted (congrArg₂ (some <| Statement.while_ .nowhere · ·) hcond hbody)

/-- A block that stands as a statement is resolved alike if it is as a block. -/
theorem resolveBlockStmt_agree (hbody : AgreeOn Block.bare (resolveBlock ctx body) (resolveBlock ctx' body')) :
    AgreeOn (Option.map Statement.bare) (resolveStmt ctx (.block body)) (resolveStmt ctx' (.block body')) := by
  rw [resolveStmt, resolveStmt]
  exact hbody.bind fun _ _ hbody => .accepted (congrArg (some <| Statement.block ·) hbody)

end Parts

mutual

/-- A statement and the one without its spans resolve to the same up to spans. -/
theorem resolveStmt_bare : (s : Stmt) → ∀ {ctx ctx' : Context}, ctx.Alike ctx' →
    AgreeOn (Option.map Statement.bare) (resolveStmt ctx s) (resolveStmt ctx' s.bare)
  | .let_ span name value, ctx, ctx', h => by
    rw [Stmt.bare, resolveStmt, resolveStmt]
    exact (resolveExpr_bare h value).bind fun _ _ hvalue => .accepted (congrArg (some <| Statement.let_ name.name ·) hvalue)
  | .assign span target value, ctx, ctx', h => by
    rw [Stmt.bare, resolveStmt, resolveStmt, Expr.span_bare]
    exact (resolvePlace_bare h target.span target rfl).bind fun _ _ hplace => (resolveExpr_bare h value).bind fun _ _ hvalue =>
      .accepted (congrArg₂ (some <| Statement.assign · ·) hplace hvalue)
  | .function _ _ _ _, ctx, ctx', h => .accepted rfl
  | .if_ span cond body otherwise, _, _, h =>
    resolveIf_agree (resolveExpr_bare h cond) (resolveBlock_bare body h) (resolveOtherwise_bare otherwise h)
  | .while_ span cond body, _, _, h => resolveWhile_agree (resolveExpr_bare h cond) (resolveBlock_bare body h.loop)
  | .return_ span value, ctx, ctx', h => by
    unfold resolveStmt Stmt.bare
    rw [h.inFunction]
    cases ctx'.inFunction with
    | false => cases value <;> exact .refuse ..
    | true =>
      cases value with
      | none => exact .accepted rfl
      | some value =>
        exact (resolveExpr_bare h value).bind fun _ _ hvalue => .accepted (congrArg (some <| Statement.return_ <| some ·) hvalue)
  | .break_ span, ctx, ctx', h => by
    rw [Stmt.bare, resolveStmt, resolveStmt, h.inLoop]
    exact .ite (.accepted rfl) (.refuse ..)
  | .continue_ span, ctx, ctx', h => by
    rw [Stmt.bare, resolveStmt, resolveStmt, h.inLoop]
    exact .ite (.accepted rfl) (.refuse ..)
  | .block body, _, _, h => resolveBlockStmt_agree (resolveBlock_bare body h)
  | .expr span e, ctx, ctx', h => by
    rw [Stmt.bare, resolveStmt, resolveStmt]
    exact (resolveExpr_bare h e).bind fun _ _ he => .accepted (congrArg (some <| Statement.expr ·) he)

/-- A declaration of a function and the one without its spans resolve to the same up to spans. -/
theorem resolveFunction_bare : (s : Stmt) → ∀ {ctx ctx' : Context}, ctx.Alike ctx' →
    AgreeOn (Option.map Function.bare) (resolveFunction ctx s) (resolveFunction ctx' s.bare)
  | .function span name params (.mk inner stmts), ctx, ctx', h => by
    rw [Stmt.bare, Script.Block.bare]
    refine resolveFunction_agree ?_ (resolveBody_bare h.function (resolveStmts_bare stmts))
    rw [List.map_map]
    rfl
  | .let_ _ _ _, _, _, _ | .assign _ _ _, _, _, _ | .if_ _ _ _ _, _, _, _ | .while_ _ _ _, _, _, _ | .return_ _ _, _, _, _
  | .break_ _, _, _, _ | .continue_ _, _, _, _ | .block _, _, _, _ | .expr _ _, _, _, _ => .accepted rfl

/-- Statements one behind the other are resolved alike with and without their spans. -/
theorem resolveStmts_bare : (stmts : List Stmt) → ∀ {ctx ctx' : Context}, ctx.Alike ctx' →
    AgreeOn bareParts (resolveStmts ctx stmts) (resolveStmts ctx' (Stmt.bares stmts))
  | [], _, _, _ => .accepted rfl
  | s :: stmts, _, _, h => resolveStmts_agree (resolveFunction_bare s h) (resolveStmt_bare s h) (resolveStmts_bare stmts h)

/-- A block and the one without its spans resolve to the same up to spans. -/
theorem resolveBlock_bare : (body : Script.Block) → ∀ {ctx ctx' : Context}, ctx.Alike ctx' →
    AgreeOn Block.bare (resolveBlock ctx body) (resolveBlock ctx' body.bare)
  | .mk _ stmts, _, _, h => resolveBlock_agree (resolveBody_bare h (resolveStmts_bare stmts))

/-- What follows the block of an `if` and the same without spans resolve to the same up to spans. -/
theorem resolveOtherwise_bare : (otherwise : Otherwise) → ∀ {ctx ctx' : Context}, ctx.Alike ctx' →
    AgreeOn (Option.map Block.bare) (resolveOtherwise ctx otherwise) (resolveOtherwise ctx' otherwise.bare)
  | .nothing, _, _, _ => .accepted rfl
  | .block body, _, _, h => resolveElse_agree (resolveBlock_bare body h)
  | .elseIf _ cond body otherwise, _, _, h =>
    resolveElseIf_agree (resolveExpr_bare h cond) (resolveBlock_bare body h) (resolveOtherwise_bare otherwise h)

end

/-! ## Scripts -/

/-- Scripts with one alias resolve to the same up to spans if their outermost blocks do. -/
theorem ofModule_agree {m m' : Module} (hhost : m.host.map (·.host.name) = m'.host.map (·.host.name))
    (hbody : ∀ {ctx ctx' : Context}, ctx.Alike ctx' → AgreeOn Block.bare (resolveBody ctx [] m.stmts) (resolveBody ctx' [] m'.stmts)) :
    AgreeOn Program.bare (ofModule m) (ofModule m') := by
  rw [ofModule_eq, ofModule_eq, hhost]
  exact (hbody (.refl _)).bind fun _ _ hbody => .accepted (congrArg (Program.mk _) hbody)

/-- A script and the one without its spans resolve to the same up to spans. -/
theorem ofModule_bare (m : Module) : AgreeOn Program.bare (ofModule m) (ofModule m.bare) := by
  refine ofModule_agree ?_ fun h => resolveBody_bare h (resolveStmts_bare m.stmts)
  rw [Module.bare, Option.map_map]
  rfl

end HostScript.Program
