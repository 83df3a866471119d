import Mathlib
import HostScript.Proofs.Program.Occurrence
import HostScript.Proofs.Script.Declared

/-!
# Resolving orderly scripts

The resolver adds the declarations of a block to its names before it looks at the statements. In an orderly script it refuses no `let`
for being a second declaration, and no assignment to a marked name for want of one (`ofModule_spares`): what is declared in front of a
statement is among the names of the blocks around it.
-/

namespace HostScript.Program

open Script (Expr Stmt Ident Otherwise Module)
open NamesAux

/-- The problems with the declaration of a name: there is another one in the block, or there is none where it is assigned to. -/
def ResolveProblem.Misdeclared : ResolveProblem → Prop
  | .alreadyDeclared _ | .undeclared _ => True
  | _ => False

/-- A part of a script is not refused for the declaration of a name at one of some spans. -/
def Spares {α : Type} (marks : List Span) (r : Resolved α) : Prop :=
  ∀ fault, r = .error fault → fault.problem.Misdeclared → fault.span ∉ marks

namespace Spares

variable {α β : Type} {marks : List Span}

/-- What succeeds spares the marks. -/
theorem ok (a : α) : Spares marks (.ok a) := fun _ h => by cases h

/-- A refusal spares the marks unless it is about a declaration at one of them. -/
theorem refuse {span : Span} {problem : ResolveProblem} (h : problem.Misdeclared → span ∉ marks) :
    Spares marks (Program.refuse span problem : Resolved α) := by
  intro fault hfault
  obtain rfl := Except.error.inj hfault
  exact h

/-- A sequence spares the marks if both of its parts do. -/
theorem bind {r : Resolved α} {f : α → Resolved β} (hr : Spares marks r) (hf : ∀ a, r = .ok a → Spares marks (f a)) :
    Spares marks (r >>= f) := by
  cases r with
  | ok a => exact hf a rfl
  | error fault =>
    intro other hother
    obtain rfl := Except.error.inj hother
    exact hr fault rfl

end Spares

/-! ## Expressions -/

section Expressions

variable {marks : List Span} (ctx : Context)

/-- Resolving a variable spares the marks. -/
theorem resolveVar_spares (span : Span) (name : String) : Spares marks (resolveVar ctx span name) := by
  unfold resolveVar
  split
  · exact .ok _
  · exact .ok _
  · exact .refuse False.elim
  · split
    · exact .refuse False.elim
    · split <;> exact .refuse False.elim

/-- Resolving a member of the host spares the marks. -/
theorem resolveHostMember_spares (field : Ident) : Spares marks (resolveHostMember field) := by
  unfold resolveHostMember
  split
  · exact .ok _
  · split <;> exact .refuse False.elim

/-- Resolving what is called spares the marks. -/
theorem resolveCallee_spares (span nameSpan : Span) (name : String) (argCount : Nat) :
    Spares marks (resolveCallee ctx span nameSpan name argCount) := by
  unfold resolveCallee
  split
  · split
    · exact .ok _
    · exact .refuse False.elim
  · exact .refuse False.elim
  · split
    · exact .refuse False.elim
    · split
      · exact .ok _
      · split
        · exact .ok _
        · exact .refuse False.elim

/-- Resolving a capability of the host spares the marks. -/
theorem resolveCapability_spares (span : Span) (field : Ident) (argCount : Nat) : Spares marks (resolveCapability span field argCount) := by
  unfold resolveCapability
  split
  · exact .refuse False.elim
  · split
    · exact .refuse False.elim
    · exact .ok _

mutual

/-- Expressions declare nothing. -/
theorem resolveExpr_spares : (e : Expr) → Spares marks (resolveExpr ctx e)
  | .null _ | .bool _ _ | .number _ _ | .string _ _ | .rawString _ _ => by
    unfold resolveExpr
    exact .ok _
  | .var span name => by
    unfold resolveExpr
    exact resolveVar_spares ctx span name
  | .array _ items => by
    unfold resolveExpr
    exact (resolveExprs_spares items).bind fun _ _ => .ok _
  | .object _ fields => by
    unfold resolveExpr
    exact (resolveFields_spares fields).bind fun _ _ => .ok _
  | .call span callee args => by
    unfold resolveExpr
    split
    · exact (resolveCallee_spares ctx _ _ _ _).bind fun _ _ => (resolveExprs_spares args).bind fun _ _ => .ok _
    · split
      · exact (resolveCapability_spares _ _ _).bind fun _ _ => (resolveExprs_spares args).bind fun _ _ => .ok _
      · exact (resolveExpr_spares _).bind fun _ _ => .refuse False.elim
    · exact (resolveExpr_spares _).bind fun _ _ => .refuse False.elim
  | .unary _ _ operand => by
    unfold resolveExpr
    exact (resolveExpr_spares operand).bind fun _ _ => .ok _
  | .member _ base field => by
    unfold resolveExpr
    split
    · exact resolveHostMember_spares field
    · exact (resolveExpr_spares base).bind fun _ _ => .ok _
  | .index _ base key => by
    unfold resolveExpr
    exact (resolveExpr_spares base).bind fun _ _ => (resolveExpr_spares key).bind fun _ _ => .ok _
  | .binary _ _ left right => by
    unfold resolveExpr
    exact (resolveExpr_spares left).bind fun _ _ => (resolveExpr_spares right).bind fun _ _ => .ok _

/-- Resolving expressions spares the marks, one behind the other. -/
theorem resolveExprs_spares : (es : List Expr) → Spares marks (resolveExprs ctx es)
  | [] => by
    unfold resolveExprs
    exact .ok _
  | e :: es => by
    unfold resolveExprs
    exact (resolveExpr_spares e).bind fun _ _ => (resolveExprs_spares es).bind fun _ _ => .ok _

/-- Resolving fields spares the marks, one behind the other. -/
theorem resolveFields_spares : (fields : List (Span × Expr × Expr)) → Spares marks (resolveFields ctx fields)
  | [] => by
    unfold resolveFields
    exact .ok _
  | (_, key, value) :: fields => by
    unfold resolveFields
    exact (resolveExpr_spares key).bind fun _ _ => (resolveExpr_spares value).bind fun _ _ =>
      (resolveFields_spares fields).bind fun _ _ => .ok _

end

end Expressions

/-! ## Names -/

/-- Some names are declared in the blocks around a part of a script. -/
def Context.Covers (ctx : Context) (known : List String) : Prop := ∀ name ∈ known, (ctx.lookup name).isSome

/-- The statements declare names of the blocks around a part of a script. -/
def Context.Hoists (ctx : Context) (stmts : List Stmt) : Prop := ∀ s ∈ stmts, ctx.Covers s.declared?.toList

/-- The names of a block are known. -/
def Names.Within (names : Names) (known : List String) : Prop := ∀ name, (names.lookup name).isSome → name ∈ known

variable {ctx inner : Context} {functions : Bool} {marks : List Span} {known : List String}

/-- Names that are covered by a context are covered together. -/
theorem Context.Covers.append {more : List String} (h : ctx.Covers known) (hmore : ctx.Covers more) : ctx.Covers (known ++ more) :=
  List.forall_mem_append.mpr ⟨h, hmore⟩

/-- A new name is known together with those that are known already. -/
theorem Names.Within.cons {names : Names} (h : names.Within known) (name : String) (binding : Binding) :
    Names.Within ((name, binding) :: names) (name :: known) := by
  intro other hother
  rw [List.lookup_cons] at hother
  cases heq : other == name with
  | true => exact List.mem_cons.mpr (.inl (eq_of_beq heq))
  | false =>
    rw [heq] at hother
    exact List.mem_cons_of_mem _ (h other hother)

/-- Declaring a name spares the marks if it is new wherever it is marked. -/
theorem declare_spares {names : Names} {ident : Ident} {binding : Binding} (h : ident.span ∈ marks → names.lookup ident.name = none) :
    Spares marks (ctx.declare names ident binding) := by
  unfold Context.declare
  split
  · exact .refuse False.elim
  · split
    · rename_i hdeclared
      refine .refuse fun _ hmarked => ?_
      rw [h hmarked] at hdeclared
      cases hdeclared
    · exact .ok _

/-- Declaring parameters that are not marked spares the marks. -/
theorem params_spares {params : List Ident} (h : ∀ param ∈ params, param.span ∉ marks) (names : Names) :
    Spares marks (params.foldlM (fun names p => ctx.declare names p .param) names) := by
  induction params generalizing names with
  | nil => exact .ok _
  | cons param params ih =>
    obtain ⟨hparam, hparams⟩ := List.forall_mem_cons.mp h
    rw [List.foldlM_cons]
    exact (declare_spares fun hmarked => absurd hmarked hparam).bind fun next _ => ih hparams next

/-- No `let` among orderly statements is a second declaration. -/
theorem hoist_spares {stmts : List Stmt} {names : Names} (h : Stmt.AllOrderly functions marks known stmts) (hnames : names.Within known) :
    Spares marks (ctx.hoist names stmts) := by
  induction stmts generalizing names known with
  | nil => exact .ok _
  | cons s stmts ih =>
    obtain ⟨hs, hstmts⟩ := h
    cases s with
    | let_ span name value =>
      have hfresh : names.lookup name.name = none := by
        rw [← Option.not_isSome_iff_eq_none]
        exact fun hdeclared => hs (hnames _ hdeclared)
      refine (declare_spares fun _ => hfresh).bind fun next hnext => ih hstmts ?_
      obtain ⟨-, rfl⟩ := declare_ok hnext
      exact hnames.cons _ _
    | function span name params body =>
      refine (declare_spares fun hmarked => absurd hmarked hs.2.1).bind fun next hnext => ih hstmts ?_
      obtain ⟨-, rfl⟩ := declare_ok hnext
      exact hnames.cons _ _
    | _ => exact ih hstmts hnames

theorem of_nothing : Names.Of [] [] := ⟨fun _ _ h => absurd h List.not_mem_nil, fun _ _ h => by cases h⟩

/-- Entering a block leads to a context with the names of its parameters and statements. -/
theorem enter_names {params : List Ident} {stmts : List Stmt} (h : ctx.enter params stmts = .ok inner) :
    ∃ names : Names, names.Of (params.map (fun p => (p.name, .param)) ++ declarations stmts) ∧
      inner = { ctx with blocks := names :: ctx.blocks } := by
  unfold Context.enter at h
  obtain ⟨first, hparams, h⟩ := bind_eq_ok.mp h
  obtain ⟨names, hhoist, h⟩ := bind_eq_ok.mp h
  exact ⟨names, of_hoist hhoist (of_params hparams of_nothing), (Except.ok.inj h).symm⟩

/-- Entering a body whose parameters are not marked and whose statements are orderly spares the marks. -/
theorem enter_spares {params : List Ident} {stmts : List Stmt} (hparams : ∀ param ∈ params, param.span ∉ marks)
    (h : Stmt.AllOrderly functions marks (params.map Ident.name ++ known) stmts) : Spares marks (ctx.enter params stmts) := by
  unfold Context.enter
  refine (params_spares hparams []).bind fun names hnames => (hoist_spares h fun name hname => ?_).bind fun _ _ => .ok _
  have hof := of_params hnames of_nothing
  obtain ⟨binding, hbinding⟩ := Option.isSome_iff_exists.mp hname
  obtain ⟨param, hparam, heq⟩ := List.mem_map.mp (hof.only name binding hbinding)
  exact List.mem_append_left _ (List.mem_map.mpr ⟨param, hparam, congrArg Prod.fst heq⟩)

/-- Inside a block the names of its parameters and statements are declared, and those around it. -/
theorem enter_covers {params : List Ident} {stmts : List Stmt} (h : ctx.enter params stmts = .ok inner) (hcovers : ctx.Covers known) :
    inner.Covers (params.map Ident.name ++ known) ∧ inner.Hoists stmts := by
  obtain ⟨names, hof, rfl⟩ := enter_names h
  have hbound : ∀ name binding, (name, binding) ∈ params.map (fun p => (p.name, Binding.param)) ++ declarations stmts →
      (Context.lookup { ctx with blocks := names :: ctx.blocks } name).isSome := by
    intro name binding hmem
    rw [Context.lookup, List.findSome?_cons, hof.bound name binding hmem]
    rfl
  have houter : Context.Covers { ctx with blocks := names :: ctx.blocks } known := by
    intro name hname
    rw [Context.lookup, List.findSome?_cons]
    cases names.lookup name with
    | some binding => rfl
    | none => exact hcovers name hname
  refine ⟨Context.Covers.append (fun name hname => ?_) houter, fun s hs name hname => ?_⟩
  · obtain ⟨param, hparam, rfl⟩ := List.mem_map.mp hname
    exact hbound _ .param (List.mem_append_left _ (List.mem_map.mpr ⟨param, hparam, rfl⟩))
  · have hdeclared := Option.mem_toList.mp hname
    cases s with
    | let_ span ident value =>
      obtain rfl := Option.some.inj hdeclared
      exact hbound _ .variable (List.mem_append_right _ (List.mem_filterMap.mpr ⟨_, hs, rfl⟩))
    | function span ident params body =>
      obtain rfl := Option.some.inj hdeclared
      exact hbound _ (.function params.length) (List.mem_append_right _ (List.mem_filterMap.mpr ⟨_, hs, rfl⟩))
    | _ => cases hdeclared

/-! ## Statements -/

/-- An assignment is not refused for want of a declaration if its variable is declared. -/
theorem resolvePlace_spares {whole : Span} :
    (x : Expr) → (∀ root, x.root? = some root → root.span ∈ marks → (ctx.lookup root.name).isSome) →
      ∀ path : List PathSegment, Spares marks (resolvePlace ctx whole path x)
  | .member _ base field, h, path => by
    unfold resolvePlace
    split
    · split
      · exact .ok _
      · exact .refuse False.elim
    · exact resolvePlace_spares base h _
  | .index _ base key, h, path => by
    unfold resolvePlace
    exact (resolveExpr_spares ctx key).bind fun _ _ => resolvePlace_spares base h _
  | .var span name, h, path => by
    unfold resolvePlace
    split
    · exact .ok _
    · exact .ok _
    · exact .refuse False.elim
    · rename_i hnone
      split
      · exact .refuse False.elim
      · refine .refuse fun _ hmarked => ?_
        have hsome := h ⟨span, name⟩ rfl hmarked
        rw [hnone] at hsome
        cases hsome
  | .null _, h, path | .bool _ _, h, path | .number _ _, h, path | .string _ _, h, path | .rawString _ _, h, path | .array _ _, h, path
  | .object _ _, h, path | .call _ _ _, h, path | .unary _ _ _, h, path | .binary _ _ _ _, h, path => by
    unfold resolvePlace
    exact .refuse False.elim

mutual

/-- Orderly statements are not refused for the declaration of a marked name. -/
theorem resolveStmt_spares : (s : Stmt) → ∀ {ctx : Context} {known : List String}, s.Orderly functions marks known → ctx.Covers known →
    Spares marks (resolveStmt ctx s)
  | .let_ _ name value, ctx, known, h, hcovers => by
    unfold resolveStmt
    exact (resolveExpr_spares ctx value).bind fun _ _ => .ok _
  | .assign _ target value, ctx, known, h, hcovers => by
    unfold resolveStmt
    refine (resolvePlace_spares target (fun root hroot hmarked => ?_) []).bind fun _ _ =>
      (resolveExpr_spares ctx value).bind fun _ _ => .ok _
    exact hcovers _ (h root hroot hmarked)
  | .function _ _ _ _, ctx, known, h, hcovers => by
    unfold resolveStmt
    exact .ok _
  | .if_ _ cond body otherwise, ctx, known, h, hcovers => by
    unfold resolveStmt
    exact (resolveExpr_spares ctx cond).bind fun _ _ => (resolveBlock_spares body h.1 hcovers).bind fun _ _ =>
      (resolveOtherwise_spares otherwise h.2 hcovers).bind fun _ _ => .ok _
  | .while_ _ cond body, ctx, known, h, hcovers => by
    unfold resolveStmt
    have hinside : Context.Covers { ctx with inLoop := true } known := hcovers
    exact (resolveExpr_spares ctx cond).bind fun _ _ => (resolveBlock_spares body h hinside).bind fun _ _ => .ok _
  | .return_ span value, ctx, known, h, hcovers => by
    unfold resolveStmt
    -- a value is resolved behind the check that the statement stands in a function
    cases value with
    | none =>
      dsimp only
      split
      · refine Spares.bind ?_ fun _ _ => .ok _
        exact .refuse False.elim
      · exact .ok _
    | some value =>
      have hvalue : Spares marks (do return some (Statement.return_ (some (← resolveExpr ctx value)))) :=
        (resolveExpr_spares ctx value).bind fun _ _ => .ok _
      dsimp only
      split
      · refine Spares.bind ?_ fun _ _ => hvalue
        exact .refuse False.elim
      · exact hvalue
  | .break_ span, ctx, known, h, hcovers => by
    unfold resolveStmt
    split
    · exact .ok _
    · exact .refuse False.elim
  | .continue_ span, ctx, known, h, hcovers => by
    unfold resolveStmt
    split
    · exact .ok _
    · exact .refuse False.elim
  | .block body, ctx, known, h, hcovers => by
    unfold resolveStmt
    exact (resolveBlock_spares body h hcovers).bind fun _ _ => .ok _
  | .expr _ e, ctx, known, h, hcovers => by
    unfold resolveStmt
    exact (resolveExpr_spares ctx e).bind fun _ _ => .ok _

/-- Resolving an orderly function spares the marks. -/
theorem resolveFunction_spares : (s : Stmt) → ∀ {ctx : Context} {known : List String}, s.Orderly functions marks known → ctx.Covers known →
    ctx.Covers s.declared?.toList → Spares marks (resolveFunction ctx s)
  | .function _ name params (.mk _ stmts), ctx, known, h, hcovers, hdeclared => by
    unfold resolveFunction
    obtain ⟨-, -, hparams, hbody⟩ := h
    refine (enter_spares hparams hbody).bind fun inner hinner => ?_
    have hinside : Context.Covers { ctx with inLoop := false, inFunction := true } (name.name :: known) :=
      List.forall_mem_cons.mpr ⟨hdeclared _ (List.mem_singleton_self _), hcovers⟩
    obtain ⟨hinner, hhoists⟩ := enter_covers hinner hinside
    exact (resolveStmts_spares stmts hbody hinner hhoists).bind fun _ _ => .ok _
  | .let_ _ _ _, ctx, known, h, hcovers, hdeclared | .assign _ _ _, ctx, known, h, hcovers, hdeclared
  | .if_ _ _ _ _, ctx, known, h, hcovers, hdeclared | .while_ _ _ _, ctx, known, h, hcovers, hdeclared
  | .return_ _ _, ctx, known, h, hcovers, hdeclared | .break_ _, ctx, known, h, hcovers, hdeclared
  | .continue_ _, ctx, known, h, hcovers, hdeclared | .block _, ctx, known, h, hcovers, hdeclared
  | .expr _ _, ctx, known, h, hcovers, hdeclared => by
    unfold resolveFunction
    exact .ok _

/-- Resolving orderly statements spares the marks, one behind the other. -/
theorem resolveStmts_spares : (stmts : List Stmt) → ∀ {ctx : Context} {known : List String}, Stmt.AllOrderly functions marks known stmts →
    ctx.Covers known → ctx.Hoists stmts → Spares marks (resolveStmts ctx stmts)
  | [], ctx, known, h, hcovers, hhoists => by
    unfold resolveStmts
    exact .ok _
  | s :: stmts, ctx, known, h, hcovers, hhoists => by
    unfold resolveStmts
    obtain ⟨hs, hstmts⟩ := h
    obtain ⟨hdeclared, hothers⟩ := List.forall_mem_cons.mp hhoists
    exact (resolveFunction_spares s hs hcovers hdeclared).bind fun _ _ => (resolveStmt_spares s hs hcovers).bind fun _ _ =>
      (resolveStmts_spares stmts hstmts (hdeclared.append hcovers) hothers).bind fun _ _ => .ok _

/-- Resolving an orderly block spares the marks. -/
theorem resolveBlock_spares : (b : Script.Block) → ∀ {ctx : Context} {known : List String}, b.Orderly functions marks known →
    ctx.Covers known → Spares marks (resolveBlock ctx b)
  | .mk _ stmts, ctx, known, h, hcovers => by
    unfold resolveBlock
    have hstmts : Stmt.AllOrderly functions marks known stmts := h
    refine (enter_spares (List.forall_mem_nil _) hstmts).bind fun inner hinner => ?_
    obtain ⟨hinner, hhoists⟩ := enter_covers hinner hcovers
    exact (resolveStmts_spares stmts hstmts hinner hhoists).bind fun _ _ => .ok _

/-- Resolving what stands behind the block of an `if` spares the marks if it is orderly. -/
theorem resolveOtherwise_spares : (o : Otherwise) → ∀ {ctx : Context} {known : List String}, o.Orderly functions marks known →
    ctx.Covers known → Spares marks (resolveOtherwise ctx o)
  | .nothing, ctx, known, h, hcovers => by
    unfold resolveOtherwise
    exact .ok _
  | .block body, ctx, known, h, hcovers => by
    unfold resolveOtherwise
    exact (resolveBlock_spares body h hcovers).bind fun _ _ => .ok _
  | .elseIf _ cond body otherwise, ctx, known, h, hcovers => by
    unfold resolveOtherwise
    exact (resolveExpr_spares ctx cond).bind fun _ _ => (resolveBlock_spares body h.1 hcovers).bind fun _ _ =>
      (resolveOtherwise_spares otherwise h.2 hcovers).bind fun _ _ => .ok _

end

/-- An orderly script is not refused for the declaration of a marked name. -/
theorem ofModule_spares {m : Module} (h : Stmt.AllOrderly functions marks [] m.stmts) : Spares marks (ofModule m) := by
  unfold ofModule
  refine (enter_spares (List.forall_mem_nil _) h).bind fun inner hinner => ?_
  obtain ⟨hinner, hhoists⟩ := enter_covers hinner (List.forall_mem_nil _)
  exact (resolveStmts_spares m.stmts h hinner hhoists).bind fun _ _ => .ok _

/-! ## Resolved statements -/

/-- The name that a resolved statement binds in its block. -/
def Statement.bound? : Statement → Option String
  | .let_ name _ => some name
  | _ => none

mutual

/-- A resolved statement where some names are known: a `let` binds a new name, and an assignment at a marked span is to a known one. -/
def Statement.Orderly (marks : List Span) (known : List String) : Statement → Prop
  | .let_ name _ => name ∉ known
  | .assign (.local_ span name _) _ => span ∈ marks → name ∈ known
  | .assign (.exports _ _) _ => True
  | .if_ _ body none => body.Orderly marks known
  | .if_ _ body (some otherwise) => body.Orderly marks known ∧ otherwise.Orderly marks known
  | .while_ _ _ body => body.Orderly marks known
  | .block body => body.Orderly marks known
  | .return_ _ | .break_ | .continue_ | .expr _ => True

/-- A block without functions that declares new names. -/
def Block.Orderly (marks : List Span) (known : List String) : Block → Prop
  | .mk locals functions stmts => (∀ name ∈ locals, name ∉ known) ∧ functions = [] ∧ Statement.AllOrderly marks known stmts

/-- Resolved statements one after the other, each with the names that those before it bind. -/
def Statement.AllOrderly (marks : List Span) (known : List String) : List Statement → Prop
  | [] => True
  | s :: rest => s.Orderly marks known ∧ Statement.AllOrderly marks (s.bound?.toList ++ known) rest

end

/-- The names of orderly statements are new. -/
theorem declaredLocals_new {stmts : List Stmt} (h : Stmt.AllOrderly functions marks known stmts) :
    ∀ name ∈ declaredLocals stmts, name ∉ known := by
  induction stmts generalizing known with
  | nil => exact List.forall_mem_nil _
  | cons s stmts ih =>
    obtain ⟨hs, hstmts⟩ := h
    have hothers : ∀ name ∈ declaredLocals stmts, name ∉ known := fun name hname hmem => ih hstmts name hname (List.mem_append_right _ hmem)
    cases s with
    | let_ span name value => exact List.forall_mem_cons.mpr ⟨hs, hothers⟩
    | _ => exact hothers

/-- An assignment to a variable is to the one from which its target starts. -/
theorem resolvePlace_root {whole : Span} : (x : Expr) → ∀ {path path' : List PathSegment} {span : Span} {name : String},
    resolvePlace ctx whole path x = .ok (.local_ span name path') → x.root? = some ⟨span, name⟩
  | .member _ base field, path, path', span, name, h => by
    unfold resolvePlace Program.refuse at h
    split at h
    · split at h
      · cases h
      · cases h
    · exact resolvePlace_root base h
  | .index _ base key, path, path', span, name, h => by
    unfold resolvePlace at h
    obtain ⟨first, -, h⟩ := bind_eq_ok.mp h
    exact resolvePlace_root base h
  | .var here name', path, path', span, name, h => by
    unfold resolvePlace Program.refuse at h
    split at h
    · cases h
      rfl
    · cases h
      rfl
    · cases h
    · split at h
      · cases h
      · cases h

mutual

/-- An orderly statement that declares no functions resolves to an orderly one. -/
theorem resolveStmt_orderly : (s : Stmt) → ∀ {ctx : Context} {known : List String} {st : Option Statement}, resolveStmt ctx s = .ok st →
    s.Orderly false marks known → ∃ resolved, st = some resolved ∧ resolved.Orderly marks known ∧ resolved.bound? = s.declared?
  | .let_ _ name value, ctx, known, st, h, hs => by
    unfold resolveStmt at h
    obtain ⟨e, -, h⟩ := bind_eq_ok.mp h
    exact ⟨_, (Except.ok.inj h).symm, hs, rfl⟩
  | .assign _ target value, ctx, known, st, h, hs => by
    unfold resolveStmt at h
    obtain ⟨place, hplace, h⟩ := bind_eq_ok.mp h
    obtain ⟨e, -, h⟩ := bind_eq_ok.mp h
    refine ⟨_, (Except.ok.inj h).symm, ?_, rfl⟩
    cases place with
    | local_ span name path => exact hs _ (resolvePlace_root target hplace)
    | exports span path => trivial
  | .function _ _ _ _, ctx, known, st, h, hs => absurd hs.1 Bool.false_ne_true
  | .if_ _ cond body otherwise, ctx, known, st, h, hs => by
    unfold resolveStmt at h
    obtain ⟨e, -, h⟩ := bind_eq_ok.mp h
    obtain ⟨block, hblock, h⟩ := bind_eq_ok.mp h
    obtain ⟨other, hother, h⟩ := bind_eq_ok.mp h
    refine ⟨_, (Except.ok.inj h).symm, ?_, rfl⟩
    have hbody := resolveBlock_orderly body hblock hs.1
    cases other with
    | none => exact hbody
    | some other => exact ⟨hbody, resolveOtherwise_orderly otherwise hother hs.2⟩
  | .while_ _ cond body, ctx, known, st, h, hs => by
    unfold resolveStmt at h
    obtain ⟨e, -, h⟩ := bind_eq_ok.mp h
    obtain ⟨block, hblock, h⟩ := bind_eq_ok.mp h
    exact ⟨_, (Except.ok.inj h).symm, resolveBlock_orderly body hblock hs, rfl⟩
  | .return_ span value, ctx, known, st, h, hs => by
    unfold resolveStmt Program.refuse at h
    cases value with
    | none =>
      dsimp only at h
      split at h
      · obtain ⟨_, hrefused, -⟩ := bind_eq_ok.mp h
        cases hrefused
      · exact ⟨_, (Except.ok.inj h).symm, trivial, rfl⟩
    | some value =>
      dsimp only at h
      split at h
      · obtain ⟨_, hrefused, -⟩ := bind_eq_ok.mp h
        cases hrefused
      · obtain ⟨e, -, h⟩ := bind_eq_ok.mp h
        exact ⟨_, (Except.ok.inj h).symm, trivial, rfl⟩
  | .break_ span, ctx, known, st, h, hs => by
    unfold resolveStmt Program.refuse at h
    split at h
    · exact ⟨_, (Except.ok.inj h).symm, trivial, rfl⟩
    · cases h
  | .continue_ span, ctx, known, st, h, hs => by
    unfold resolveStmt Program.refuse at h
    split at h
    · exact ⟨_, (Except.ok.inj h).symm, trivial, rfl⟩
    · cases h
  | .block body, ctx, known, st, h, hs => by
    unfold resolveStmt at h
    obtain ⟨block, hblock, h⟩ := bind_eq_ok.mp h
    exact ⟨_, (Except.ok.inj h).symm, resolveBlock_orderly body hblock hs, rfl⟩
  | .expr _ e, ctx, known, st, h, hs => by
    unfold resolveStmt at h
    obtain ⟨first, -, h⟩ := bind_eq_ok.mp h
    exact ⟨_, (Except.ok.inj h).symm, trivial, rfl⟩

/-- Orderly statements without functions are resolved to none, and to orderly ones. -/
theorem resolveStmts_orderly : (stmts : List Stmt) → ∀ {ctx : Context} {known : List String} {functions : List Function}
    {body : List Statement}, resolveStmts ctx stmts = .ok (functions, body) → Stmt.AllOrderly false marks known stmts →
    functions = [] ∧ Statement.AllOrderly marks known body
  | [], ctx, known, functions, body, h, hstmts => by
    obtain ⟨rfl, rfl⟩ := Prod.mk.inj (Except.ok.inj h)
    exact ⟨rfl, trivial⟩
  | s :: stmts, ctx, known, functions, body, h, hstmts => by
    unfold resolveStmts at h
    obtain ⟨function, hfunction, h⟩ := bind_eq_ok.mp h
    obtain ⟨st, hst, h⟩ := bind_eq_ok.mp h
    obtain ⟨⟨others, rest⟩, hrest, h⟩ := bind_eq_ok.mp h
    obtain ⟨rfl, rfl⟩ := Prod.mk.inj (Except.ok.inj h)
    obtain ⟨hs, hothers⟩ := hstmts
    obtain ⟨resolved, rfl, hresolved, hbound⟩ := resolveStmt_orderly s hst hs
    obtain ⟨rfl, hbehind⟩ := resolveStmts_orderly stmts hrest hothers
    have hnone : function = none := by
      cases s with
      | function span name params body => exact absurd hs.1 Bool.false_ne_true
      | _ => exact (Except.ok.inj hfunction).symm
    rw [hnone]
    exact ⟨rfl, hresolved, hbound ▸ hbehind⟩

/-- An orderly block is resolved to an orderly one. -/
theorem resolveBlock_orderly : (b : Script.Block) → ∀ {ctx : Context} {known : List String} {body : Block}, resolveBlock ctx b = .ok body →
    b.Orderly false marks known → body.Orderly marks known
  | .mk _ stmts, ctx, known, body, h, hstmts => by
    unfold resolveBlock at h
    obtain ⟨inner, -, h⟩ := bind_eq_ok.mp h
    obtain ⟨⟨functions, body⟩, hbody, h⟩ := bind_eq_ok.mp h
    obtain rfl := Except.ok.inj h
    have hstmts : Stmt.AllOrderly false marks known stmts := hstmts
    exact ⟨declaredLocals_new hstmts, resolveStmts_orderly stmts hbody hstmts⟩

/-- What stands behind the block of an `if` is resolved to an orderly block if it is orderly. -/
theorem resolveOtherwise_orderly : (o : Otherwise) → ∀ {ctx : Context} {known : List String} {block : Block},
    resolveOtherwise ctx o = .ok (some block) → o.Orderly false marks known → block.Orderly marks known
  | .nothing, ctx, known, block, h, ho => by
    unfold resolveOtherwise at h
    cases h
  | .block body, ctx, known, block, h, ho => by
    unfold resolveOtherwise at h
    obtain ⟨inner, hinner, h⟩ := bind_eq_ok.mp h
    obtain rfl := Option.some.inj (Except.ok.inj h)
    exact resolveBlock_orderly body hinner ho
  | .elseIf _ cond body otherwise, ctx, known, block, h, ho => by
    unfold resolveOtherwise at h
    obtain ⟨e, -, h⟩ := bind_eq_ok.mp h
    obtain ⟨inner, hinner, h⟩ := bind_eq_ok.mp h
    obtain ⟨other, hother, h⟩ := bind_eq_ok.mp h
    obtain rfl := Option.some.inj (Except.ok.inj h)
    have hbody := resolveBlock_orderly body hinner ho.1
    refine ⟨List.forall_mem_nil _, rfl, ?_, trivial⟩
    cases other with
    | none => exact hbody
    | some other => exact ⟨hbody, resolveOtherwise_orderly otherwise hother ho.2⟩

end

/-- An orderly script that declares no functions resolves to an orderly block. -/
theorem ofModule_orderly {m : Module} {program : Program} (h : ofModule m = .ok program) (hm : Stmt.AllOrderly false marks [] m.stmts) :
    program.body.Orderly marks [] := by
  unfold ofModule at h
  obtain ⟨inner, -, h⟩ := bind_eq_ok.mp h
  obtain ⟨⟨functions, body⟩, hbody, h⟩ := bind_eq_ok.mp h
  obtain rfl := Except.ok.inj h
  exact ⟨declaredLocals_new hm, resolveStmts_orderly m.stmts hbody hm⟩

end HostScript.Program
