import Mathlib
import HostScript.Proofs.Program.Walk

/-!
# Hoisting

Where a function is declared in a row of statements does not count. `MovedIn` moves the functions of one row that stands anywhere in a
script: the outermost row, a block, or the body of a function. A script and the one with its functions moved are both refused, or both
resolve to the same program up to spans (`functions_hoisted`). The context of a row is made from all that is declared in it, before any
statement is resolved (`enter_alike`), and what the row resolves to keeps the functions apart from the other statements
(`resolveStmts_eq_ok_iff`).
-/

namespace HostScript.Script

/-- The functions of a row are moved among its other statements: the functions stay in their order, and so do the others. -/
structure Rearranged (stmts stmts' : List Stmt) : Prop where
  functions : stmts.filter Stmt.isFunction = stmts'.filter Stmt.isFunction
  others : stmts.filter (!Stmt.isFunction ·) = stmts'.filter (!Stmt.isFunction ·)

theorem Rearranged.perm {stmts stmts' : List Stmt} (h : Rearranged stmts stmts') : stmts.Perm stmts' := by
  have hold := List.filter_append_perm Stmt.isFunction stmts
  rw [h.functions, h.others] at hold
  exact hold.symm.trans (List.filter_append_perm Stmt.isFunction stmts')

mutual

/-- The functions of one row of statements are moved: of this row, or of one in it. -/
inductive MovedIn : List Stmt → List Stmt → Prop
  | here {stmts stmts' : List Stmt} (h : Rearranged stmts stmts') : MovedIn stmts stmts'
  | inside (front back : List Stmt) {s s' : Stmt} (h : StmtMoved s s') : MovedIn (front ++ s :: back) (front ++ s' :: back)

/-- The functions of one row in a statement are moved. -/
inductive StmtMoved : Stmt → Stmt → Prop
  | function (span inner : Span) (name : Ident) (params : List Ident) {stmts stmts' : List Stmt} (h : MovedIn stmts stmts') :
      StmtMoved (.function span name params (.mk inner stmts)) (.function span name params (.mk inner stmts'))
  | ifBody (span inner : Span) (cond : Expr) (otherwise : Otherwise) {stmts stmts' : List Stmt} (h : MovedIn stmts stmts') :
      StmtMoved (.if_ span cond (.mk inner stmts) otherwise) (.if_ span cond (.mk inner stmts') otherwise)
  | ifOtherwise (span : Span) (cond : Expr) (body : Block) {otherwise otherwise' : Otherwise}
      (h : OtherwiseMoved otherwise otherwise') : StmtMoved (.if_ span cond body otherwise) (.if_ span cond body otherwise')
  | whileBody (span inner : Span) (cond : Expr) {stmts stmts' : List Stmt} (h : MovedIn stmts stmts') :
      StmtMoved (.while_ span cond (.mk inner stmts)) (.while_ span cond (.mk inner stmts'))
  | block (inner : Span) {stmts stmts' : List Stmt} (h : MovedIn stmts stmts') :
      StmtMoved (.block (.mk inner stmts)) (.block (.mk inner stmts'))

/-- The functions of one row in what follows the block of an `if` are moved. -/
inductive OtherwiseMoved : Otherwise → Otherwise → Prop
  | block (inner : Span) {stmts stmts' : List Stmt} (h : MovedIn stmts stmts') :
      OtherwiseMoved (.block (.mk inner stmts)) (.block (.mk inner stmts'))
  | elseIfBody (span inner : Span) (cond : Expr) (otherwise : Otherwise) {stmts stmts' : List Stmt} (h : MovedIn stmts stmts') :
      OtherwiseMoved (.elseIf span cond (.mk inner stmts) otherwise) (.elseIf span cond (.mk inner stmts') otherwise)
  | elseIf (span : Span) (cond : Expr) (body : Block) {otherwise otherwise' : Otherwise} (h : OtherwiseMoved otherwise otherwise') :
      OtherwiseMoved (.elseIf span cond body otherwise) (.elseIf span cond body otherwise')

end

/-- The functions of one row of a script are moved. -/
structure Module.Moved (m m' : Module) : Prop where
  host : m.host = m'.host
  stmts : MovedIn m.stmts m'.stmts

end HostScript.Script

namespace HostScript.Program

open Script (Expr Stmt Ident Module Otherwise Rearranged MovedIn StmtMoved OtherwiseMoved)
open NamesAux (bind_eq_ok)

variable {ctx ctx' : Context} {params : List Ident} {stmts stmts' : List Stmt} {s s' : Stmt}

/-! ## Functions and the other statements -/

/-- The functions and the other statements of a row are resolved apart. -/
theorem resolveStmts_eq_ok_iff {parts : List Function × List Statement} : resolveStmts ctx stmts = .ok parts ↔
    ∃ functions body, (stmts.filter Stmt.isFunction).mapM (resolveFunction ctx) = .ok functions ∧
      (stmts.filter (!Stmt.isFunction ·)).mapM (resolveStmt ctx) = .ok body ∧
      (functions.flatMap Option.toList, body.flatMap Option.toList) = parts := by
  induction stmts generalizing parts with
  | nil =>
    constructor
    · intro h
      exact ⟨[], [], rfl, rfl, Except.ok.inj h⟩
    · rintro ⟨_, _, ⟨⟩, ⟨⟩, rfl⟩
      rfl
  | cons s stmts ih =>
    unfold resolveStmts
    cases hs : s.isFunction with
    | true =>
      rw [List.filter_cons_of_pos hs, List.filter_cons_of_neg (by rw [hs]; decide), List.mapM_cons, resolveStmt_of_function hs]
      simp only [bind_eq_ok, ih]
      constructor
      · rintro ⟨function, hfunction, _, ⟨⟩, _, ⟨functions, body, hfunctions, hbody, rfl⟩, h⟩
        exact ⟨_, body, ⟨function, hfunction, functions, hfunctions, rfl⟩, hbody, Except.ok.inj h⟩
      · rintro ⟨_, body, ⟨function, hfunction, functions, hfunctions, ⟨⟩⟩, hbody, rfl⟩
        exact ⟨function, hfunction, none, rfl, _, ⟨functions, body, hfunctions, hbody, rfl⟩, rfl⟩
    | false =>
      rw [List.filter_cons_of_neg (by rw [hs]; decide), List.filter_cons_of_pos (by rw [hs]; decide), List.mapM_cons,
        resolveFunction_of_other hs]
      simp only [bind_eq_ok, ih]
      constructor
      · rintro ⟨_, ⟨⟩, stmt, hstmt, _, ⟨functions, body, hfunctions, hbody, rfl⟩, h⟩
        exact ⟨functions, _, hfunctions, ⟨stmt, hstmt, body, hbody, rfl⟩, Except.ok.inj h⟩
      · rintro ⟨functions, _, hfunctions, ⟨stmt, hstmt, body, hbody, ⟨⟩⟩, rfl⟩
        exact ⟨none, rfl, stmt, hstmt, _, ⟨functions, body, hfunctions, hbody, rfl⟩, rfl⟩

/-- Only statements that declare no function declare locals. -/
theorem declaredLocals_others (stmts : List Stmt) : declaredLocals (stmts.filter (!Stmt.isFunction ·)) = declaredLocals stmts := by
  unfold declaredLocals
  rw [List.filterMap_filter]
  refine congrArg (List.filterMap · stmts) (funext fun s => ?_)
  cases s <;> rfl

/-- Moving the functions of a row changes nothing in what it resolves to. -/
theorem resolveStmts_rearranged (h : Rearranged stmts stmts') : AgreeOn bareParts (resolveStmts ctx stmts) (resolveStmts ctx stmts') := by
  have hiff : ∀ parts, resolveStmts ctx stmts = .ok parts ↔ resolveStmts ctx stmts' = .ok parts := by
    intro parts
    rw [resolveStmts_eq_ok_iff, resolveStmts_eq_ok_iff, h.functions, h.others]
  exact .of_accepts (fun parts hparts => ⟨parts, (hiff parts).mp hparts, rfl⟩) fun parts hparts => ⟨parts, (hiff parts).mpr hparts⟩

/-! ## Alike contexts -/

/-- What resolves to the same up to spans as it does without its spans resolves to the same up to spans in contexts that are alike. -/
theorem agree_alike {α β : Type} {view : α → β} {resolve resolveBare : Context → Resolved α}
    (hbare : ∀ {ctx ctx' : Context}, ctx.Alike ctx' → AgreeOn view (resolve ctx) (resolveBare ctx')) (h : ctx.Alike ctx') :
    AgreeOn view (resolve ctx) (resolve ctx') := (hbare h).trans (hbare (.refl ctx')).symm

theorem resolveExpr_alike (h : ctx.Alike ctx') (e : Expr) : AgreeOn Expression.bare (resolveExpr ctx e) (resolveExpr ctx' e) :=
  agree_alike (resolveExpr_bare · e) h

theorem resolveStmts_alike (h : ctx.Alike ctx') (stmts : List Stmt) :
    AgreeOn bareParts (resolveStmts ctx stmts) (resolveStmts ctx' stmts) :=
  agree_alike (resolveStmts_bare stmts) h

theorem resolveBlock_alike (h : ctx.Alike ctx') (body : Script.Block) :
    AgreeOn Block.bare (resolveBlock ctx body) (resolveBlock ctx' body) :=
  agree_alike (resolveBlock_bare body) h

theorem resolveOtherwise_alike (h : ctx.Alike ctx') (otherwise : Otherwise) :
    AgreeOn (Option.map Block.bare) (resolveOtherwise ctx otherwise) (resolveOtherwise ctx' otherwise) :=
  agree_alike (resolveOtherwise_bare otherwise) h

/-- Statements resolve to the same up to spans if the one in which they differ does. -/
theorem resolveStmts_inside (h : ctx.Alike ctx')
    (hfunction : AgreeOn (Option.map Function.bare) (resolveFunction ctx s) (resolveFunction ctx' s'))
    (hstmt : AgreeOn (Option.map Statement.bare) (resolveStmt ctx s) (resolveStmt ctx' s')) (front back : List Stmt) :
    AgreeOn bareParts (resolveStmts ctx (front ++ s :: back)) (resolveStmts ctx' (front ++ s' :: back)) := by
  induction front with
  | nil => exact resolveStmts_agree hfunction hstmt (resolveStmts_alike h back)
  | cons first front ih =>
    exact resolveStmts_agree (agree_alike (resolveFunction_bare first) h) (agree_alike (resolveStmt_bare first) h) ih

/-! ## Moving functions -/

theorem declarations_moved (h : StmtMoved s s') (front back : List Stmt) :
    declarations (front ++ s :: back) = declarations (front ++ s' :: back) := by
  unfold declarations
  rw [List.filterMap_append, List.filterMap_append]
  cases h <;> rfl

theorem declaredLocals_moved (h : StmtMoved s s') (front back : List Stmt) :
    declaredLocals (front ++ s :: back) = declaredLocals (front ++ s' :: back) := by
  unfold declaredLocals
  rw [List.filterMap_append, List.filterMap_append]
  cases h <;> rfl

mutual

/-- A row resolves to the same up to spans when the functions of one row in it are moved. -/
theorem resolveBody_moved : ∀ {stmts stmts' : List Stmt}, MovedIn stmts stmts' → ∀ {ctx ctx' : Context}, ctx.Alike ctx' →
    ∀ params, AgreeOn Block.bare (resolveBody ctx params stmts) (resolveBody ctx' params stmts')
  | stmts, stmts', .here hmoved, ctx, ctx', h, params => by
    refine resolveBody_agree h ((hmoved.perm.filterMap _).append_left _) ?_ fun hinner => ?_
    · rw [← declaredLocals_others, hmoved.others, declaredLocals_others]
    · exact (resolveStmts_rearranged hmoved).trans (resolveStmts_alike hinner stmts')
  | _, _, .inside front back hmoved, ctx, ctx', h, params => by
    refine resolveBody_agree h ?_ (declaredLocals_moved hmoved front back) fun hinner => ?_
    · rw [entriesOf, entriesOf, declarations_moved hmoved]
    · exact resolveStmts_inside hinner (resolveFunction_moved hmoved hinner) (resolveStmt_moved hmoved hinner) front back

/-- A function resolves to the same up to spans when the functions of one row in it are moved. -/
theorem resolveFunction_moved : ∀ {s s' : Stmt}, StmtMoved s s' → ∀ {ctx ctx' : Context}, ctx.Alike ctx' →
    AgreeOn (Option.map Function.bare) (resolveFunction ctx s) (resolveFunction ctx' s')
  | _, _, .function span inner name params hmoved, _, _, h => resolveFunction_agree rfl (resolveBody_moved hmoved h.function params)
  | _, _, .ifBody _ _ _ _ _, _, _, _ | _, _, .ifOtherwise _ _ _ _, _, _, _ | _, _, .whileBody _ _ _ _, _, _, _
  | _, _, .block _ _, _, _, _ => .accepted rfl

/-- A statement resolves to the same up to spans when the functions of one row in it are moved. -/
theorem resolveStmt_moved : ∀ {s s' : Stmt}, StmtMoved s s' → ∀ {ctx ctx' : Context}, ctx.Alike ctx' →
    AgreeOn (Option.map Statement.bare) (resolveStmt ctx s) (resolveStmt ctx' s')
  | _, _, .function _ _ _ _ _, _, _, _ => .accepted rfl
  | _, _, .ifBody span inner cond otherwise hmoved, _, _, h =>
    resolveIf_agree (resolveExpr_alike h cond) (resolveBlock_agree (resolveBody_moved hmoved h [])) (resolveOtherwise_alike h otherwise)
  | _, _, .ifOtherwise span cond body hmoved, _, _, h =>
    resolveIf_agree (resolveExpr_alike h cond) (resolveBlock_alike h body) (resolveOtherwise_moved hmoved h)
  | _, _, .whileBody span inner cond hmoved, _, _, h =>
    resolveWhile_agree (resolveExpr_alike h cond) (resolveBlock_agree (resolveBody_moved hmoved h.loop []))
  | _, _, .block inner hmoved, _, _, h => resolveBlockStmt_agree (resolveBlock_agree (resolveBody_moved hmoved h []))

/-- What follows the block of an `if` resolves to the same up to spans when the functions of one row in it are moved. -/
theorem resolveOtherwise_moved : ∀ {otherwise otherwise' : Otherwise}, OtherwiseMoved otherwise otherwise' →
    ∀ {ctx ctx' : Context}, ctx.Alike ctx' →
    AgreeOn (Option.map Block.bare) (resolveOtherwise ctx otherwise) (resolveOtherwise ctx' otherwise')
  | _, _, .block inner hmoved, _, _, h => resolveElse_agree (resolveBlock_agree (resolveBody_moved hmoved h []))
  | _, _, .elseIfBody span inner cond otherwise hmoved, _, _, h =>
    resolveElseIf_agree (resolveExpr_alike h cond) (resolveBlock_agree (resolveBody_moved hmoved h [])) (resolveOtherwise_alike h otherwise)
  | _, _, .elseIf span cond body hmoved, _, _, h =>
    resolveElseIf_agree (resolveExpr_alike h cond) (resolveBlock_alike h body) (resolveOtherwise_moved hmoved h)

end

/-! ## Scripts -/

/-- A script resolves to the same up to spans when the functions of one row of it are moved. -/
theorem ofModule_moved {m m' : Module} (h : m.Moved m') : AgreeOn Program.bare (ofModule m) (ofModule m') :=
  ofModule_agree (by rw [h.host]) fun hctx => resolveBody_moved h.stmts hctx []

/-- Functions are hoisted: where they are declared in a row of statements does not count. Scripts that are the same up to their spans but
for the places of the functions in one row are both refused, or both resolve to the same program up to spans. So they do when they are
resolved on one state, and so do their texts. -/
theorem functions_hoisted {m m' : Module} (h : m.bare.Moved m'.bare) :
    AgreeOn Program.bare (ofModule m) (ofModule m') ∧ AgreeOn Program.bare (Walking.ofModule m) (Walking.ofModule m') ∧
      ∀ source source', Module.ofSource source = .ok m → Module.ofSource source' = .ok m' →
        AgreeOn Program.bare (ofSource source) (ofSource source') := by
  have hagree : AgreeOn Program.bare (ofModule m) (ofModule m') :=
    ((ofModule_bare m).trans (ofModule_moved h)).trans (ofModule_bare m').symm
  refine ⟨hagree, ?_, fun source source' hm hm' => ?_⟩
  · rw [Walking.ofModule_eq, Walking.ofModule_eq]
    exact hagree.mapError _ _
  · rw [ofSource, ofSource, hm, hm']
    exact hagree.mapError _ _

set_option maxRecDepth 2048 in
/-- A function is moved in the body of another one, in front of its call. -/
theorem functions_hoisted_nested : ∃ m m' program program',
    Module.ofSource ⟨"late", "function f(a){g();function g(){return a;}}"⟩ = .ok m ∧
    Module.ofSource ⟨"early", "function f(a){function g(){return a;}g();}"⟩ = .ok m' ∧ m.bare.Moved m'.bare ∧
    ofModule m = .ok program ∧ ofModule m' = .ok program' ∧ program.bare = program'.bare := by
  have hlate : (Module.ofSource ⟨"late", "function f(a){g();function g(){return a;}}"⟩).map Module.bare =
    .ok ⟨none, [.function .nowhere ⟨.nowhere, "f"⟩ [⟨.nowhere, "a"⟩] (.mk .nowhere [
      .expr .nowhere (.call .nowhere (.var .nowhere "g") []),
      .function .nowhere ⟨.nowhere, "g"⟩ [] (.mk .nowhere [.return_ .nowhere (some (.var .nowhere "a"))])])]⟩ := by cbv
  have hearly : (Module.ofSource ⟨"early", "function f(a){function g(){return a;}g();}"⟩).map Module.bare =
    .ok ⟨none, [.function .nowhere ⟨.nowhere, "f"⟩ [⟨.nowhere, "a"⟩] (.mk .nowhere [
      .function .nowhere ⟨.nowhere, "g"⟩ [] (.mk .nowhere [.return_ .nowhere (some (.var .nowhere "a"))]),
      .expr .nowhere (.call .nowhere (.var .nowhere "g") [])])]⟩ := by cbv
  cases hm : Module.ofSource ⟨"late", "function f(a){g();function g(){return a;}}"⟩ with
  | error fault =>
    rw [hm] at hlate
    cases hlate
  | ok m =>
    cases hm' : Module.ofSource ⟨"early", "function f(a){function g(){return a;}g();}"⟩ with
    | error fault =>
      rw [hm'] at hearly
      cases hearly
    | ok m' =>
      rw [hm] at hlate
      rw [hm'] at hearly
      have hmoved : m.bare.Moved m'.bare := by
        rw [Except.ok.inj hlate, Except.ok.inj hearly]
        exact ⟨rfl, .inside [] [] (.function _ _ _ _ (.here ⟨rfl, rfl⟩))⟩
      have hcompiles : ∃ program, ofModule m.bare = .ok program := by
        rw [Except.ok.inj hlate]
        exact ⟨_, rfl⟩
      obtain ⟨_, hbare⟩ := hcompiles
      obtain ⟨program, hprogram, -⟩ := (ofModule_bare m).symm.ok hbare
      obtain ⟨program', hprogram', hsame⟩ := (functions_hoisted hmoved).1.ok hprogram
      exact ⟨m, m', program, program', rfl, rfl, hmoved, hprogram, hprogram', hsame⟩

end HostScript.Program
