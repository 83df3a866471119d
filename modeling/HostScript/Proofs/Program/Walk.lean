import Mathlib
import HostScript.Program.Walk
import HostScript.Proofs.Program.Bare

/-!
# Resolving on one state is resolving

A walk over a script resolves it as `Program.ofModule` does, and fails at nothing else (`Walking.ofModule_eq`). Each part of a script leaves
the state as it found it, whether it is refused or not, so that a part only looks at its context (`Walking.looking`).
-/

namespace HostScript.Program.Walking

open Script (Expr Stmt Ident Module Otherwise)
open NamesAux (bind_eq_ok)

variable {α β : Type}

/-! ## Looking at the context -/

/-- A look at the context leaves the walk as it is. -/
theorem looking_apply (f : Context → Resolved α) (w : Walk) : looking f w = settle (f w.context) w := rfl

/-- Two results one after the other can be settled together. -/
theorem settle_bind (r : Resolved α) (g : α → Resolved β) : (settle r >>= fun a => settle (g a)) = settle (r >>= g) := by
  cases r <;> rfl

/-- Two looks at the context one after the other are one. -/
theorem looking_bind (f : Context → Resolved α) (g : α → Context → Resolved β) :
    (looking f >>= fun a => looking (g a)) = looking fun ctx => f ctx >>= fun a => g a ctx := by
  funext w
  rw [looking_apply, ← settle_bind]
  change EStateM.bind (looking f) _ w = EStateM.bind (settle (f w.context)) _ w
  unfold EStateM.bind
  rw [looking_apply]
  cases f w.context <;> rfl

/-- A value that is made of what a look finds is a look. -/
theorem looking_map (f : Context → Resolved α) (g : α → β) :
    (looking f >>= fun a => pure (g a)) = looking fun ctx => f ctx >>= fun a => .ok (g a) := looking_bind f fun a _ => .ok (g a)

/-- What is looked at between two changes of the state is looked at in the changed context, if the second change takes the first one
back. -/
theorem around_looking {w : Walk} {enter leave : Walk → Walk} {change : Context → Context} (f : Context → Resolved α)
    (hleave : leave (enter w) = w) (hcontext : (enter w).context = change w.context) :
    around enter leave (looking f) w = looking (fun ctx => f (change ctx)) w := by
  unfold around
  rw [looking_apply, looking_apply, hcontext]
  cases f (change w.context) with
  | ok a => exact congrArg (EStateM.Result.ok a) hleave
  | error fault => exact congrArg (EStateM.Result.error (WalkFault.refused fault)) hleave

/-- A look inside of a loop is a look at the context inside of it. -/
theorem inLoop_looking (f : Context → Resolved α) : inLoop (looking f) = looking fun ctx => f { ctx with inLoop := true } := by
  funext w
  refine around_looking f rfl ?_
  unfold Walk.context
  rw [decide_eq_true w.loops.succ_pos]

/-- A look inside of a function is a look at the context inside of it. -/
theorem inFunction_looking (f : Context → Resolved α) :
    inFunction (looking f) = looking fun ctx => f { ctx with inLoop := false, inFunction := true } := by
  funext w
  refine around_looking f rfl ?_
  unfold Walk.context
  rw [decide_eq_true w.functions.succ_pos, decide_eq_false (Nat.lt_irrefl 0)]

/-! ## Declaring -/

/-- A declaration reads and changes only the names of the innermost block. A name that is there already is bound again before it is
refused. -/
theorem declare_within (w : Walk) (names : Names) (ident : Ident) (binding : Binding) : declare ident binding (w.within names) =
    if w.context.isHost ident.name then .error (.refused ⟨.reservedName ident.name, ident.span⟩) (w.within names)
    else if (names.lookup ident.name).isSome then
      .error (.refused ⟨.alreadyDeclared ident.name, ident.span⟩) (w.within ((ident.name, binding) :: names))
    else .ok () (w.within ((ident.name, binding) :: names)) := by
  have hsteps : declare ident binding (w.within names) = (if w.context.isHost ident.name then
      refuse ident.span (.reservedName ident.name)
      else do
        set (w.within ((ident.name, binding) :: names))
        if (names.lookup ident.name).isSome then refuse ident.span (.alreadyDeclared ident.name)) (w.within names) := rfl
  rw [hsteps]
  split
  · rfl
  · cases (names.lookup ident.name).isSome <;> rfl

/-- Declares in the innermost block what a function of its names does. What is left of the names after a refusal does not count, for the
block is closed. -/
structure Declares (x : Walking Unit) (f : Context → Names → Resolved Names) : Prop where
  accepts : ∀ {w : Walk} {names after : Names}, f w.context names = .ok after → x (w.within names) = .ok () (w.within after)
  refuses : ∀ {w : Walk} {names : Names} {fault : ResolveFault}, f w.context names = .error fault →
    ∃ after, x (w.within names) = .error (.refused fault) (w.within after)

namespace Declares

/-- To declare nothing is a declaration. -/
theorem nil : Declares (pure ()) fun _ names => .ok names where
  accepts h := by
    obtain rfl := Except.ok.inj h
    rfl
  refuses h := nomatch h

/-- Two declarations one after the other. -/
theorem seq {x y : Walking Unit} {f g : Context → Names → Resolved Names} (hx : Declares x f) (hy : Declares y g) :
    Declares (do x; y) fun ctx names => f ctx names >>= g ctx where
  accepts {w names after} h := by
    obtain ⟨between, hf, hg⟩ := bind_eq_ok.mp h
    change EStateM.bind x (fun _ => y) _ = _
    unfold EStateM.bind
    rw [hx.accepts hf]
    exact hy.accepts hg
  refuses {w names fault} h := by
    change ∃ after, EStateM.bind x (fun _ => y) _ = _
    unfold EStateM.bind
    cases hf : f w.context names with
    | ok between =>
      rw [hf] at h
      rw [hx.accepts hf]
      exact hy.refuses h
    | error fault' =>
      rw [hf] at h
      obtain rfl := Except.error.inj h
      obtain ⟨after, hafter⟩ := hx.refuses hf
      rw [hafter]
      exact ⟨after, rfl⟩

/-- A name is declared as in the names of the block. -/
theorem declare (ident : Ident) (binding : Binding) :
    Declares (Walking.declare ident binding) fun ctx names => ctx.declare names ident binding where
  accepts {w names after} h := by
    obtain ⟨⟨hhost, hlookup⟩, rfl⟩ := Context.declare_eq_ok_iff.mp h
    rw [declare_within, hhost, hlookup]
    rfl
  refuses {w names fault} h := by
    unfold Context.declare at h
    rw [declare_within]
    split at h
    · obtain rfl := Except.error.inj h
      exact ⟨names, if_pos ‹_›⟩
    · rw [if_neg ‹_›]
      split at h
      · obtain rfl := Except.error.inj h
        exact ⟨(ident.name, binding) :: names, if_pos ‹_›⟩
      · cases h

/-- Parameters are declared one after the other, in front of the statements. -/
theorem params (params : List Ident) :
    Declares (params.forM (Walking.declare · .param)) fun ctx names =>
      params.foldlM (fun names p => ctx.declare names p .param) names := by
  induction params with
  | nil => exact nil
  | cons p params ih => exact (declare p .param).seq ih

/-- The names that the statements of a block declare are declared one after the other. -/
theorem hoist (stmts : List Stmt) : Declares (Walking.hoist stmts) fun ctx names => ctx.hoist names stmts := by
  induction stmts with
  | nil => exact nil
  | cons s stmts ih =>
    cases s with
    | let_ span name value => exact (declare name .variable).seq ih
    | function span name params body => exact (declare name (.function params.length)).seq ih
    | _ => exact ih

end Declares

/-- What is looked at behind declarations in a block is looked at in the context with the names of the block. -/
theorem inBlock_declares {x : Walking Unit} {f : Context → Names → Resolved Names} (h : Declares x f) (g : Context → Resolved α) :
    inBlock (do x; looking g) = looking fun ctx => f ctx [] >>= fun names => g { ctx with blocks := names :: ctx.blocks } := by
  funext w
  rw [looking_apply]
  change around (·.within []) _ (EStateM.bind x fun _ => looking g) w = _
  unfold around EStateM.bind
  cases hf : f w.context [] with
  | ok names =>
    rw [h.accepts hf]
    change _ = settle (g (w.within names).context) w
    simp only [looking_apply]
    cases g (w.within names).context <;> rfl
  | error fault =>
    obtain ⟨after, hafter⟩ := h.refuses hf
    rw [hafter]
    rfl

/-- A block is entered as its context is, and left again. -/
theorem body_looking (params : List Ident) (stmts : List Stmt) :
    body params stmts (looking (resolveStmts · stmts)) = looking (resolveBody · params stmts) := by
  have hparts := looking_map (resolveStmts · stmts) fun parts => Block.mk (declaredLocals stmts) parts.1 parts.2
  have hdeclares := (Declares.params params).seq (.hoist stmts)
  have hblock := inBlock_declares hdeclares fun ctx => resolveStmts ctx stmts >>= fun parts =>
    .ok (Block.mk (declaredLocals stmts) parts.1 parts.2)
  rw [← hparts, bind_assoc] at hblock
  refine hblock.trans (congrArg looking (funext fun ctx => ?_))
  unfold resolveBody Context.enter
  simp only [bind_assoc]
  rfl

/-! ## Statements -/

mutual

/-- A statement that declares no function only looks at its context. -/
theorem stmt_looking : (s : Stmt) → s.isFunction = false → some <$> stmt s = looking (resolveStmt · s)
  | .let_ span name value, _ => by
    simp only [stmt, resolveStmt, map_bind, map_pure]
    exact looking_map _ _
  | .assign span target value, _ => by
    simp only [stmt, map_bind, map_pure]
    simp only [looking_map, looking_bind, resolveStmt]
    rfl
  | .if_ span cond body other, _ => by
    simp only [stmt, map_bind, map_pure]
    simp only [block_looking body, otherwise_looking other, looking_map, looking_bind, resolveStmt]
    rfl
  | .while_ span cond body, _ => by
    simp only [stmt, map_bind, map_pure]
    simp only [block_looking body, inLoop_looking, looking_map, looking_bind, resolveStmt]
    rfl
  | .return_ span none, _ => by
    funext ⟨host, blocks, loops, functions⟩
    cases functions <;> rfl
  | .return_ span (some value), _ => by
    funext ⟨host, blocks, loops, functions⟩
    cases functions with
    | zero => rfl
    | succ functions =>
      change (some <$> (looking (resolveExpr · value) >>= fun v => pure (Statement.return_ (some v)))) _ = _
      rw [map_bind]
      simp only [map_pure]
      exact congrFun (looking_map _ _) _
  | .break_ span, _ => by
    funext ⟨host, blocks, loops, functions⟩
    cases loops <;> rfl
  | .continue_ span, _ => by
    funext ⟨host, blocks, loops, functions⟩
    cases loops <;> rfl
  | .block body, _ => by
    simp only [stmt, map_bind, map_pure]
    simp only [block_looking body, looking_map, resolveStmt]
    rfl
  | .expr span e, _ => by
    simp only [stmt, resolveStmt, map_bind, map_pure]
    exact looking_map _ _

/-- Statements only look at their context. -/
theorem stmts_looking : (row : List Stmt) → stmts row = looking (resolveStmts · row)
  | [] => rfl
  | s :: rest => by
    cases hs : s.isFunction with
    | true =>
      cases s with
      | function span name params b =>
        cases b with
        | mk inner row =>
          simp only [stmts, stmts_looking row, stmts_looking rest, body_looking, inFunction_looking, looking_map, looking_bind]
          refine congrArg looking (funext fun ctx => ?_)
          rw [resolveStmts, resolveFunction_eq, bind_assoc]
          rfl
      | _ => cases hs
    | false =>
      have hsteps : stmts (s :: rest) = some <$> stmt s >>= fun first => stmts rest >>= fun parts =>
          pure (parts.1, first.toList ++ parts.2) := by
        rw [bind_map_left]
        cases s with
        | function span name params b => cases hs
        | _ => rfl
      rw [hsteps, stmt_looking s hs, stmts_looking rest]
      simp only [looking_map, looking_bind]
      refine congrArg looking (funext fun ctx => ?_)
      rw [resolveStmts, resolveFunction_of_other hs]
      rfl

/-- A block only looks at its context. -/
theorem block_looking : (b : Script.Block) → block b = looking (resolveBlock · b)
  | .mk span row => by
    rw [block, stmts_looking row, body_looking]
    simp only [resolveBlock_eq]

/-- What follows the block of an `if` only looks at its context. -/
theorem otherwise_looking : (o : Otherwise) → otherwise o = looking (resolveOtherwise · o)
  | .nothing => rfl
  | .block body => by
    simp only [otherwise, resolveOtherwise, block_looking body]
    exact looking_map _ _
  | .elseIf span cond body other => by
    simp only [otherwise, resolveOtherwise, block_looking body, otherwise_looking other, looking_map, looking_bind]
    rfl

end

/-! ## Scripts -/

/-- Resolving on one state is resolving. It fails at nothing else. -/
theorem ofModule_eq (m : Module) : ofModule m = (Program.ofModule m).mapError .refused := by
  have hbody := (congrArg (body [] m.stmts) (stmts_looking m.stmts)).trans (body_looking [] m.stmts)
  unfold ofModule
  rw [hbody, Program.ofModule_eq]
  simp only [looking_apply]
  change _ = ((resolveBody (Walk.context ⟨m.host.map (·.host.name), [], 0, 0⟩) [] m.stmts).bind _).mapError _
  cases resolveBody (Walk.context ⟨m.host.map (·.host.name), [], 0, 0⟩) [] m.stmts <;> rfl

end HostScript.Program.Walking
