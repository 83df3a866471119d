import Mathlib
import HostScript.Proofs.Program.Occurrence

/-!
# Scoped programs

What the resolver promises of the programs that it makes: every name has been looked up in the context of its occurrence and is
of the kind that the program uses it as, calls pass as many arguments as are taken, and `break`, `continue` and `return` stand
where they can be obeyed. `ofModule_scoped` says that every resolved script is scoped.
-/

namespace HostScript.Program

open Script (Expr Stmt Ident Module Otherwise)

/-- A name that is bound to a variable or a parameter. -/
def Context.BindsValue (ctx : Context) (name : String) : Prop :=
  ctx.lookup name = some .variable ∨ ctx.lookup name = some .param

/-- An expression whose names have been looked up at a site. -/
inductive ExprScoped (m : Module) (site : Site) : Expression → Prop
  | const (v : Value) : ExprScoped m site (.const v)
  | local_ {span : Span} {name : String} (h : Occurs m site (.expr (.var span name)))
    (hbinds : (site.context m).BindsValue name) : ExprScoped m site (.local_ span name)
  | array {items : List Expression} (h : ∀ e ∈ items, ExprScoped m site e) : ExprScoped m site (.array items)
  | object {fields : List (Expression × Expression)} (hkey : ∀ field ∈ fields, ExprScoped m site field.1)
    (hvalue : ∀ field ∈ fields, ExprScoped m site field.2) : ExprScoped m site (.object fields)
  | unary {span : Span} {op : Script.UnaryOp} {operand : Expression} (h : ExprScoped m site operand) :
    ExprScoped m site (.unary span op operand)
  | arith {span : Span} {op : Script.ArithOp} {left right : Expression} (hl : ExprScoped m site left)
    (hr : ExprScoped m site right) : ExprScoped m site (.arith span op left right)
  | compare {span : Span} {op : Script.CompareOp} {left right : Expression} (hl : ExprScoped m site left)
    (hr : ExprScoped m site right) : ExprScoped m site (.compare span op left right)
  | logic {op : Script.LogicOp} {left right : Expression} (hl : ExprScoped m site left) (hr : ExprScoped m site right) :
    ExprScoped m site (.logic op left right)
  | member {span : Span} {base : Expression} {field : String} (h : ExprScoped m site base) :
    ExprScoped m site (.member span base field)
  | index {span : Span} {base key : Expression} (hb : ExprScoped m site base) (hk : ExprScoped m site key) :
    ExprScoped m site (.index span base key)
  | call {span nameSpan : Span} {name : String} {args : List Expression} {from_ : List Expr}
    (h : Occurs m site (.expr (.call span (.var nameSpan name) from_)))
    (hbinds : (site.context m).lookup name = some (.function args.length)) (hargs : ∀ e ∈ args, ExprScoped m site e) :
    ExprScoped m site (.call span name args)
  | builtin {span : Span} {function : Builtin} {args : List Expression}
    (harity : ∀ arity, function.arity? = some arity → args.length = arity) (hargs : ∀ e ∈ args, ExprScoped m site e) :
    ExprScoped m site (.builtin span function args)
  | output {span : Span} {value : Expression} (h : ExprScoped m site value) : ExprScoped m site (.output span value)
  | input {span : Span} {prompt : Expression} (h : ExprScoped m site prompt) : ExprScoped m site (.input span prompt)
  | exports : ExprScoped m site .exports

/-- A path whose keys are scoped. -/
def PathScoped (m : Module) (site : Site) (path : List PathSegment) : Prop :=
  ∀ key, .index key ∈ path → ExprScoped m site key

/-- A place whose name has been looked up at a site. -/
inductive PlaceScoped (m : Module) (site : Site) : Place → Prop
  | local_ {span : Span} {name : String} {path : List PathSegment} (h : Occurs m site (.target (.var span name)))
    (hbinds : (site.context m).BindsValue name) (hpath : PathScoped m site path) : PlaceScoped m site (.local_ span name path)
  | exports {span : Span} {path : List PathSegment} (hpath : PathScoped m site path) : PlaceScoped m site (.exports span path)

/-- The names of a block in the program are those found declared in the script. -/
structure Block.Matches (stmts : List Stmt) (locals : List String) (functions : List Function) : Prop where
  locals : ∀ name, name ∈ locals ↔ (name, .variable) ∈ declarations stmts
  functions : ∀ name arity, (name, .function arity) ∈ declarations stmts ↔
    ∃ f ∈ functions, f.name = name ∧ f.params.length = arity

mutual

/-- A statement that is scoped at a site. -/
inductive StmtScoped (m : Module) : Site → Statement → Prop
  | let_ {site : Site} {span : Span} {ident : Ident} {from_ : Expr} {value : Expression}
    (h : Occurs m site (.stmt (.let_ span ident from_))) (hv : ExprScoped m site value) :
    StmtScoped m site (.let_ ident.name value)
  | assign {site : Site} {target : Place} {value : Expression} (ht : PlaceScoped m site target)
    (hv : ExprScoped m site value) : StmtScoped m site (.assign target value)
  | expr {site : Site} {e : Expression} (h : ExprScoped m site e) : StmtScoped m site (.expr e)
  | if_ {site : Site} {cond : Expression} {stmts : List Stmt} {names : Names} {body : Block} {otherwise : Option Block}
    (hc : ExprScoped m site cond) (hb : BodyScoped m site [] stmts names body)
    (ho : ∀ block, otherwise = some block → OtherwiseScoped m site block) : StmtScoped m site (.if_ cond body otherwise)
  | while_ {site : Site} {span : Span} {cond : Expression} {stmts : List Stmt} {names : Names} {body : Block}
    (hc : ExprScoped m site cond) (hb : BodyScoped m site.loop [] stmts names body) :
    StmtScoped m site (.while_ span cond body)
  | return_ {site : Site} {value : Option Expression} (hf : site.inFunction = true)
    (hv : ∀ e, value = some e → ExprScoped m site e) : StmtScoped m site (.return_ value)
  | break_ {site : Site} (hl : site.inLoop = true) : StmtScoped m site .break_
  | continue_ {site : Site} (hl : site.inLoop = true) : StmtScoped m site .continue_
  | block {site : Site} {stmts : List Stmt} {names : Names} {body : Block} (h : BodyScoped m site [] stmts names body) :
    StmtScoped m site (.block body)

/-- A block or the body of a function, of the given statements of the script, that is scoped in what is around it. -/
inductive BodyScoped (m : Module) : Site → List Ident → List Stmt → Names → Block → Prop
  | mk {site : Site} {params : List Ident} {stmts : List Stmt} {names : Names} {locals : List String}
    {functions : List Function} {body : List Statement} (hd : site.Declares m params stmts names)
    (hm : Block.Matches stmts locals functions) (hf : ∀ f ∈ functions, FunctionScoped m (site.enter params stmts names) f)
    (hs : ∀ s ∈ body, StmtScoped m (site.enter params stmts names) s) :
    BodyScoped m site params stmts names (.mk locals functions body)

/-- A block that follows an `if` and is scoped: a block of the script, or another `if` alone. -/
inductive OtherwiseScoped (m : Module) : Site → Block → Prop
  | block {site : Site} {stmts : List Stmt} {names : Names} {body : Block} (h : BodyScoped m site [] stmts names body) :
    OtherwiseScoped m site body
  | elseIf {site : Site} {cond : Expression} {body : Block} {otherwise : Option Block}
    (h : StmtScoped m site.elseIf (.if_ cond body otherwise)) : OtherwiseScoped m site (.mk [] [] [.if_ cond body otherwise])

/-- A function that is scoped where it is declared. -/
inductive FunctionScoped (m : Module) : Site → Function → Prop
  | mk {site : Site} {span : Span} {ident : Ident} {params : List Ident} {from_ : Script.Block} {names : Names} {body : Block}
    (h : Occurs m site (.stmt (.function span ident params from_)))
    (hr : resolveFunction (site.context m) (.function span ident params from_)
      = .ok (some (.mk span ident.name (params.map (·.name)) body)))
    (hb : BodyScoped m site.function params from_.stmts names body) :
    FunctionScoped m site (.mk span ident.name (params.map (·.name)) body)

end

/-! ## Resolved expressions are scoped -/

namespace ScopedAux

open NamesAux

variable {m : Module} {site : Site}

/-- A name that resolves as a value is a variable or a parameter. -/
theorem resolveVar_ok {ctx : Context} {span : Span} {name : String} {e : Expression} (h : resolveVar ctx span name = .ok e) :
    e = .local_ span name ∧ ctx.BindsValue name := by
  unfold resolveVar refuse at h
  split at h
  · rename_i hl; exact ⟨(Except.ok.inj h).symm, Or.inl hl⟩
  · rename_i hl; exact ⟨(Except.ok.inj h).symm, Or.inr hl⟩
  · nomatch h
  · repeat' split at h
    all_goals nomatch h

/-- A call of a name is one of a function or a builtin that takes as many arguments. -/
theorem resolveCallee_ok {ctx : Context} {span nameSpan : Span} {name : String} {count : Nat}
    {call : List Expression → Expression} (h : resolveCallee ctx span nameSpan name count = .ok call) :
    (call = .call span name ∧ ctx.lookup name = some (.function count)) ∨
      ∃ function, call = .builtin span function ∧ Builtin.ofName? name = some function ∧
        ∀ arity, function.arity? = some arity → count = arity := by
  unfold resolveCallee refuse at h
  split at h
  · rename_i arity hl
    split at h
    · rename_i heq
      obtain rfl := eq_of_beq heq
      exact Or.inl ⟨(Except.ok.inj h).symm, hl⟩
    · nomatch h
  · nomatch h
  · split at h
    · nomatch h
    · rename_i function hfunction
      split at h
      · rename_i hnone
        refine Or.inr ⟨function, (Except.ok.inj h).symm, hfunction, fun arity ha => ?_⟩
        rw [hnone] at ha
        nomatch ha
      · rename_i arity hsome
        split at h
        · rename_i heq
          obtain rfl := eq_of_beq heq
          refine Or.inr ⟨function, (Except.ok.inj h).symm, hfunction, fun arity ha => ?_⟩
          exact Option.some.inj (hsome.symm.trans ha)
        · nomatch h

/-- A call of a member of the host writes or asks. -/
theorem resolveCapability_ok {span : Span} {field : Ident} {count : Nat} {call : Expression → Expression}
    (h : resolveCapability span field count = .ok call) :
    count = 1 ∧ (field.name = "output" ∧ call = .output span ∨ field.name = "input" ∧ call = .input span) := by
  unfold resolveCapability refuse at h
  split at h
  · nomatch h
  · rename_i hname
    split at h
    · nomatch h
    · rename_i hcount
      refine ⟨by simpa using hcount, ?_⟩
      obtain rfl := Except.ok.inj h
      split
      · rename_i houtput
        exact Or.inl ⟨eq_of_beq houtput, rfl⟩
      · rename_i houtput
        have hinput : ¬ field.name = "output" → field.name = "input" := by simpa using hname
        exact Or.inr ⟨hinput fun heq => houtput (beq_iff_eq.mpr heq), rfl⟩

theorem resolveHostMember_ok {field : Ident} {e : Expression} (h : resolveHostMember field = .ok e) :
    field.name = "exports" ∧ e = .exports := by
  unfold resolveHostMember refuse at h
  split at h
  · rename_i hname
    exact ⟨eq_of_beq hname, (Except.ok.inj h).symm⟩
  · split at h <;> nomatch h

/-- As many expressions come out as go in. -/
theorem resolveExprs_length {ctx : Context} {es : List Expr} {all : List Expression} (h : resolveExprs ctx es = .ok all) :
    all.length = es.length := by
  induction es generalizing all with
  | nil => obtain rfl := Except.ok.inj h; rfl
  | cons e es ih =>
    unfold resolveExprs at h
    obtain ⟨first, _, h⟩ := bind_eq_ok.mp h
    obtain ⟨rest, hrest, h⟩ := bind_eq_ok.mp h
    obtain rfl := Except.ok.inj h
    simp only [List.length_cons, ih hrest]

mutual

/-- What an expression resolves to is scoped where the expression stands. -/
theorem resolveExpr_scoped : (x : Expr) → ∀ {e : Expression}, resolveExpr (site.context m) x = .ok e →
    Occurs m site (.expr x) → ExprScoped m site e
  | .null _, e, h, ho => by
    obtain rfl := Except.ok.inj h
    exact .const _
  | .bool _ _, e, h, ho => by
    obtain rfl := Except.ok.inj h
    exact .const _
  | .number _ _, e, h, ho => by
    obtain rfl := Except.ok.inj h
    exact .const _
  | .string _ _, e, h, ho => by
    obtain rfl := Except.ok.inj h
    exact .const _
  | .rawString _ _, e, h, ho => by
    obtain rfl := Except.ok.inj h
    exact .const _
  | .var span name, e, h, ho => by
    obtain ⟨rfl, hbinds⟩ := resolveVar_ok h
    exact .local_ ho hbinds
  | .array span items, e, h, ho => by
    unfold resolveExpr at h
    obtain ⟨all, hall, h⟩ := bind_eq_ok.mp h
    obtain rfl := Except.ok.inj h
    exact .array (resolveExprs_scoped items hall fun x hx => ho.part hx)
  | .object span fields, e, h, ho => by
    unfold resolveExpr at h
    obtain ⟨all, hall, h⟩ := bind_eq_ok.mp h
    obtain rfl := Except.ok.inj h
    have hfields := resolveFields_scoped fields hall fun field hfield =>
      ⟨ho.part (List.mem_flatMap.mpr ⟨field, hfield, by simp⟩), ho.part (List.mem_flatMap.mpr ⟨field, hfield, by simp⟩)⟩
    exact .object (fun field hfield => (hfields field hfield).1) (fun field hfield => (hfields field hfield).2)
  | .call span callee args, e, h, ho => by
    unfold resolveExpr at h
    split at h
    · obtain ⟨call, hcall, h⟩ := bind_eq_ok.mp h
      obtain ⟨all, hall, h⟩ := bind_eq_ok.mp h
      obtain rfl := Except.ok.inj h
      have hargs := resolveExprs_scoped args hall fun x hx => ho.part hx
      have hlength := resolveExprs_length hall
      rcases resolveCallee_ok hcall with ⟨rfl, hbinds⟩ | ⟨function, rfl, -, harity⟩
      · exact .call ho (hlength ▸ hbinds) hargs
      · exact .builtin (fun arity ha => hlength.trans (harity arity ha)) hargs
    · split at h
      · obtain ⟨call, hcall, h⟩ := bind_eq_ok.mp h
        obtain ⟨all, hall, h⟩ := bind_eq_ok.mp h
        obtain rfl := Except.ok.inj h
        have hargs := resolveExprs_scoped args hall fun x hx => ho.part (List.mem_cons_of_mem _ hx)
        obtain ⟨hcount, hcapability⟩ := resolveCapability_ok hcall
        have hhead : ExprScoped m site (all.headD (.const .null)) := by
          cases all with
          | nil => exact .const _
          | cons first rest => exact hargs first List.mem_cons_self
        rcases hcapability with ⟨-, rfl⟩ | ⟨-, rfl⟩
        · exact .output hhead
        · exact .input hhead
      · obtain ⟨_, _, h⟩ := bind_eq_ok.mp h
        nomatch h
    · obtain ⟨_, _, h⟩ := bind_eq_ok.mp h
      nomatch h
  | .unary span op operand, e, h, ho => by
    unfold resolveExpr at h
    obtain ⟨first, hfirst, h⟩ := bind_eq_ok.mp h
    obtain rfl := Except.ok.inj h
    exact .unary (resolveExpr_scoped operand hfirst (ho.part (List.mem_singleton.mpr rfl)))
  | .member span base field, e, h, ho => by
    unfold resolveExpr at h
    split at h
    · obtain ⟨-, rfl⟩ := resolveHostMember_ok h
      exact .exports
    · obtain ⟨first, hfirst, h⟩ := bind_eq_ok.mp h
      obtain rfl := Except.ok.inj h
      exact .member (resolveExpr_scoped base hfirst (ho.part (List.mem_singleton.mpr rfl)))
  | .index span base key, e, h, ho => by
    unfold resolveExpr at h
    obtain ⟨first, hfirst, h⟩ := bind_eq_ok.mp h
    obtain ⟨second, hsecond, h⟩ := bind_eq_ok.mp h
    obtain rfl := Except.ok.inj h
    exact .index (resolveExpr_scoped base hfirst (ho.part (by simp [exprParts])))
      (resolveExpr_scoped key hsecond (ho.part (by simp [exprParts])))
  | .binary span op left right, e, h, ho => by
    unfold resolveExpr at h
    obtain ⟨first, hfirst, h⟩ := bind_eq_ok.mp h
    obtain ⟨second, hsecond, h⟩ := bind_eq_ok.mp h
    have hleft := resolveExpr_scoped left hfirst (ho.part (by simp [exprParts]))
    have hright := resolveExpr_scoped right hsecond (ho.part (by simp [exprParts]))
    obtain rfl := Except.ok.inj h
    cases op with
    | arith op => exact .arith hleft hright
    | compare op => exact .compare hleft hright
    | logic op => exact .logic hleft hright

theorem resolveExprs_scoped : (xs : List Expr) → ∀ {es : List Expression}, resolveExprs (site.context m) xs = .ok es →
    (∀ x ∈ xs, Occurs m site (.expr x)) → ∀ e ∈ es, ExprScoped m site e
  | [], es, h, ho => by
    obtain rfl := Except.ok.inj h
    exact nofun
  | x :: xs, es, h, ho => by
    unfold resolveExprs at h
    obtain ⟨first, hfirst, h⟩ := bind_eq_ok.mp h
    obtain ⟨rest, hrest, h⟩ := bind_eq_ok.mp h
    obtain rfl := Except.ok.inj h
    intro e he
    rcases List.mem_cons.mp he with rfl | he
    · exact resolveExpr_scoped x hfirst (ho x List.mem_cons_self)
    · exact resolveExprs_scoped xs hrest (fun y hy => ho y (List.mem_cons_of_mem _ hy)) e he

theorem resolveFields_scoped : (fields : List (Span × Expr × Expr)) → ∀ {all : List (Expression × Expression)},
    resolveFields (site.context m) fields = .ok all →
    (∀ field ∈ fields, Occurs m site (.expr field.2.1) ∧ Occurs m site (.expr field.2.2)) →
    ∀ field ∈ all, ExprScoped m site field.1 ∧ ExprScoped m site field.2
  | [], all, h, ho => by
    obtain rfl := Except.ok.inj h
    exact nofun
  | (span, key, value) :: fields, all, h, ho => by
    unfold resolveFields at h
    obtain ⟨first, hfirst, h⟩ := bind_eq_ok.mp h
    obtain ⟨second, hsecond, h⟩ := bind_eq_ok.mp h
    obtain ⟨rest, hrest, h⟩ := bind_eq_ok.mp h
    obtain rfl := Except.ok.inj h
    intro field hfield
    have hhere := ho _ List.mem_cons_self
    rcases List.mem_cons.mp hfield with rfl | hfield
    · exact ⟨resolveExpr_scoped key hfirst hhere.1, resolveExpr_scoped value hsecond hhere.2⟩
    · exact resolveFields_scoped fields hrest (fun y hy => ho y (List.mem_cons_of_mem _ hy)) field hfield

end

/-! ## Resolved places and statements are scoped -/

/-- What a target resolves to is scoped where the target stands. The steps that have been resolved are in front of the place's. -/
theorem resolvePlace_scoped {whole : Span} : (x : Expr) → ∀ {path : List PathSegment} {place : Place},
    resolvePlace (site.context m) whole path x = .ok place → Occurs m site (.target x) → PathScoped m site path →
    PlaceScoped m site place
  | .member span base field, path, place, h, ho, hp => by
    unfold resolvePlace refuse at h
    split at h
    · split at h
      · obtain rfl := Except.ok.inj h
        exact .exports hp
      · nomatch h
    · refine resolvePlace_scoped base h ho.memberBase fun key hkey => hp key ?_
      exact (List.mem_cons.mp hkey).resolve_left nofun
  | .index span base key, path, place, h, ho, hp => by
    unfold resolvePlace at h
    obtain ⟨first, hfirst, h⟩ := bind_eq_ok.mp h
    refine resolvePlace_scoped base h ho.indexBase fun k hk => ?_
    rcases List.mem_cons.mp hk with hk | hk
    · obtain rfl := PathSegment.index.inj hk
      exact resolveExpr_scoped key hfirst ho.indexKey
    · exact hp k hk
  | .var span name, path, place, h, ho, hp => by
    unfold resolvePlace refuse at h
    split at h
    · rename_i hl
      obtain rfl := Except.ok.inj h
      exact .local_ ho (Or.inl hl) hp
    · rename_i hl
      obtain rfl := Except.ok.inj h
      exact .local_ ho (Or.inr hl) hp
    · nomatch h
    · split at h <;> nomatch h

/-- The name and the arity of a function that a statement declares. -/
def signature? : Stmt → Option (String × Nat)
  | .function _ name params _ => some (name.name, params.length)
  | _ => none

theorem resolveFunction_signature {ctx : Context} {s : Stmt} {function : Option Function}
    (h : resolveFunction ctx s = .ok function) : function.map (fun f => (f.name, f.params.length)) = signature? s := by
  cases s with
  | function span name params body =>
    cases body with
    | mk inner stmts =>
      unfold resolveFunction at h
      obtain ⟨_, _, h⟩ := bind_eq_ok.mp h
      obtain ⟨_, _, h⟩ := bind_eq_ok.mp h
      obtain rfl := Except.ok.inj h
      simp [signature?, Function.name, Function.params]
  | _ =>
    obtain rfl := Except.ok.inj h
    rfl

/-- The functions of a block, in order, are those that its statements declare. -/
theorem resolveStmts_signatures {ctx : Context} {stmts : List Stmt} {functions : List Function} {body : List Statement}
    (h : resolveStmts ctx stmts = .ok (functions, body)) :
    functions.map (fun f => (f.name, f.params.length)) = stmts.filterMap signature? := by
  induction stmts generalizing functions body with
  | nil =>
    obtain ⟨rfl, rfl⟩ := Prod.mk.inj (Except.ok.inj h)
    rfl
  | cons s stmts ih =>
    unfold resolveStmts at h
    obtain ⟨function, hfunction, h⟩ := bind_eq_ok.mp h
    obtain ⟨stmt, _, h⟩ := bind_eq_ok.mp h
    obtain ⟨⟨rest, others⟩, hrest, h⟩ := bind_eq_ok.mp h
    obtain ⟨rfl, rfl⟩ := Prod.mk.inj (Except.ok.inj h)
    have hsignature := resolveFunction_signature hfunction
    rw [List.map_append, ih hrest]
    cases function with
    | none => rw [List.filterMap_cons_none hsignature.symm]; rfl
    | some f => rw [List.filterMap_cons_some hsignature.symm]; rfl

/-- The names of a resolved block are those that its statements declare. -/
theorem resolveStmts_matches {ctx : Context} {stmts : List Stmt} {functions : List Function} {body : List Statement}
    (h : resolveStmts ctx stmts = .ok (functions, body)) : Block.Matches stmts (declaredLocals stmts) functions := by
  constructor
  · intro name
    unfold declaredLocals declarations
    rw [List.mem_filterMap, List.mem_filterMap]
    refine exists_congr fun s => and_congr_right fun _ => ?_
    cases s <;> simp
  · intro name arity
    have hmem : (name, arity) ∈ stmts.filterMap signature? ↔ ∃ f ∈ functions, f.name = name ∧ f.params.length = arity := by
      rw [← resolveStmts_signatures h, List.mem_map]
      simp only [Prod.mk.injEq]
    rw [← hmem]
    unfold declarations
    rw [List.mem_filterMap, List.mem_filterMap]
    refine exists_congr fun s => and_congr_right fun _ => ?_
    cases s <;> simp [signature?]

/-- Entering a block leads to the site inside it. -/
theorem enter_ok (site : Site) {params : List Ident} {stmts : List Stmt} {inner : Context}
    (h : (site.context m).enter params stmts = .ok inner) :
    ∃ names, inner = (site.enter params stmts names).context m ∧ site.Declares m params stmts names := by
  have hsite : ∃ names, inner = (site.enter params stmts names).context m := by
    unfold Context.enter at h
    obtain ⟨_, _, h⟩ := bind_eq_ok.mp h
    obtain ⟨names, _, h⟩ := bind_eq_ok.mp h
    exact ⟨names, (Except.ok.inj h).symm⟩
  obtain ⟨names, rfl⟩ := hsite
  exact ⟨names, rfl, h⟩

mutual

/-- What a statement resolves to is scoped where the statement stands. -/
theorem resolveStmt_scoped : (s : Stmt) → ∀ {site : Site} {st : Statement}, resolveStmt (site.context m) s = .ok (some st) →
    Occurs m site (.stmt s) → StmtScoped m site st
  | .let_ span name value, site, st, h, ho => by
    unfold resolveStmt at h
    obtain ⟨e, he, h⟩ := bind_eq_ok.mp h
    obtain rfl := Option.some.inj (Except.ok.inj h)
    exact .let_ ho (resolveExpr_scoped value he (ho.expr (List.mem_singleton.mpr rfl)))
  | .assign span target value, site, st, h, ho => by
    unfold resolveStmt at h
    obtain ⟨place, hplace, h⟩ := bind_eq_ok.mp h
    obtain ⟨e, he, h⟩ := bind_eq_ok.mp h
    obtain rfl := Option.some.inj (Except.ok.inj h)
    exact .assign (resolvePlace_scoped target hplace ho.target nofun)
      (resolveExpr_scoped value he (ho.expr (List.mem_singleton.mpr rfl)))
  | .if_ span cond body otherwise, site, st, h, ho => by
    unfold resolveStmt at h
    obtain ⟨e, he, h⟩ := bind_eq_ok.mp h
    obtain ⟨block, hblock, h⟩ := bind_eq_ok.mp h
    obtain ⟨other, hother, h⟩ := bind_eq_ok.mp h
    obtain rfl := Option.some.inj (Except.ok.inj h)
    obtain ⟨names, hb⟩ := resolveBlock_scoped body hblock fun names hd => ho.body (by cases otherwise <;> simp [Site.bodies]) hd
    refine .if_ (resolveExpr_scoped cond he (ho.expr (List.mem_singleton.mpr rfl))) hb fun b hb => ?_
    subst hb
    exact resolveOtherwise_scoped otherwise hother ho
  | .while_ span cond body, site, st, h, ho => by
    unfold resolveStmt at h
    obtain ⟨e, he, h⟩ := bind_eq_ok.mp h
    obtain ⟨block, hblock, h⟩ := bind_eq_ok.mp h
    obtain rfl := Option.some.inj (Except.ok.inj h)
    have hinside : ∀ names, site.loop.Declares m [] body.stmts names →
        Occurs m (site.loop.enter [] body.stmts names) (.stmts body.stmts) :=
      fun names hd => ho.body (List.mem_singleton.mpr rfl) hd
    obtain ⟨names, hb⟩ := resolveBlock_scoped body hblock hinside
    exact .while_ (resolveExpr_scoped cond he (ho.expr (List.mem_singleton.mpr rfl))) hb
  | .return_ span value, site, st, h, ho => by
    unfold resolveStmt refuse at h
    cases hf : site.inFunction with
    | false =>
      rw [show (site.context m).inFunction = false from hf] at h
      nomatch h
    | true =>
      rw [show (site.context m).inFunction = true from hf] at h
      cases value with
      | none =>
        obtain rfl := Option.some.inj (Except.ok.inj h)
        exact .return_ hf nofun
      | some value =>
        obtain ⟨e, he, h⟩ := bind_eq_ok.mp h
        obtain rfl := Option.some.inj (Except.ok.inj h)
        refine .return_ hf fun e' he' => ?_
        obtain rfl := Option.some.inj he'
        exact resolveExpr_scoped value he (ho.expr (List.mem_singleton.mpr rfl))
  | .break_ span, site, st, h, ho => by
    unfold resolveStmt refuse at h
    split at h
    · rename_i hl
      obtain rfl := Option.some.inj (Except.ok.inj h)
      exact .break_ hl
    · nomatch h
  | .continue_ span, site, st, h, ho => by
    unfold resolveStmt refuse at h
    split at h
    · rename_i hl
      obtain rfl := Option.some.inj (Except.ok.inj h)
      exact .continue_ hl
    · nomatch h
  | .block body, site, st, h, ho => by
    unfold resolveStmt at h
    obtain ⟨block, hblock, h⟩ := bind_eq_ok.mp h
    obtain rfl := Option.some.inj (Except.ok.inj h)
    obtain ⟨names, hb⟩ := resolveBlock_scoped body hblock fun names hd => ho.body (List.mem_singleton.mpr rfl) hd
    exact .block hb
  | .expr span e, site, st, h, ho => by
    unfold resolveStmt at h
    obtain ⟨first, hfirst, h⟩ := bind_eq_ok.mp h
    obtain rfl := Option.some.inj (Except.ok.inj h)
    exact .expr (resolveExpr_scoped e hfirst (ho.expr (List.mem_singleton.mpr rfl)))

/-- What the declaration of a function resolves to is scoped where the declaration stands. -/
theorem resolveFunction_scoped : (s : Stmt) → ∀ {site : Site} {f : Function},
    resolveFunction (site.context m) s = .ok (some f) → Occurs m site (.stmt s) → FunctionScoped m site f
  | .function span name params (.mk inner stmts), site, f, h, ho => by
    have hr := h
    unfold resolveFunction at h
    obtain ⟨ctx, hctx, h⟩ := bind_eq_ok.mp h
    obtain ⟨⟨functions, body⟩, hbody, h⟩ := bind_eq_ok.mp h
    obtain rfl := Option.some.inj (Except.ok.inj h)
    obtain ⟨names, rfl, hd⟩ := enter_ok site.function hctx
    have hinside := ho.body (List.mem_singleton.mpr rfl) hd
    obtain ⟨hfunctions, hstmts⟩ := resolveStmts_scoped stmts hbody fun s hs => hinside.stmt hs
    exact .mk ho hr (.mk hd (resolveStmts_matches hbody) hfunctions hstmts)

theorem resolveStmts_scoped : (stmts : List Stmt) → ∀ {site : Site} {functions : List Function} {body : List Statement},
    resolveStmts (site.context m) stmts = .ok (functions, body) → (∀ s ∈ stmts, Occurs m site (.stmt s)) →
    (∀ f ∈ functions, FunctionScoped m site f) ∧ ∀ st ∈ body, StmtScoped m site st
  | [], site, functions, body, h, ho => by
    obtain ⟨rfl, rfl⟩ := Prod.mk.inj (Except.ok.inj h)
    exact ⟨nofun, nofun⟩
  | s :: stmts, site, functions, body, h, ho => by
    unfold resolveStmts at h
    obtain ⟨function, hfunction, h⟩ := bind_eq_ok.mp h
    obtain ⟨stmt, hstmt, h⟩ := bind_eq_ok.mp h
    obtain ⟨⟨rest, others⟩, hrest, h⟩ := bind_eq_ok.mp h
    obtain ⟨rfl, rfl⟩ := Prod.mk.inj (Except.ok.inj h)
    obtain ⟨hfunctions, hstmts⟩ := resolveStmts_scoped stmts hrest fun s hs => ho s (List.mem_cons_of_mem _ hs)
    constructor
    · intro f hf
      rcases List.mem_append.mp hf with hf | hf
      · obtain rfl := Option.mem_toList.mp hf
        exact resolveFunction_scoped s hfunction (ho s List.mem_cons_self)
      · exact hfunctions f hf
    · intro st hst
      rcases List.mem_append.mp hst with hst | hst
      · obtain rfl := Option.mem_toList.mp hst
        exact resolveStmt_scoped s hstmt (ho s List.mem_cons_self)
      · exact hstmts st hst

/-- What a block resolves to is scoped where the block stands. -/
theorem resolveBlock_scoped : (b : Script.Block) → ∀ {site : Site} {body : Block},
    resolveBlock (site.context m) b = .ok body →
    (∀ names, site.Declares m [] b.stmts names → Occurs m (site.enter [] b.stmts names) (.stmts b.stmts)) →
    ∃ names, BodyScoped m site [] b.stmts names body
  | .mk span stmts, site, body, h, ho => by
    unfold resolveBlock at h
    obtain ⟨ctx, hctx, h⟩ := bind_eq_ok.mp h
    obtain ⟨⟨functions, body⟩, hbody, h⟩ := bind_eq_ok.mp h
    obtain rfl := Except.ok.inj h
    obtain ⟨names, rfl, hd⟩ := enter_ok site hctx
    obtain ⟨hfunctions, hstmts⟩ := resolveStmts_scoped stmts hbody fun s hs => (ho names hd).stmt hs
    exact ⟨names, .mk hd (resolveStmts_matches hbody) hfunctions hstmts⟩

/-- What follows the block of an `if` resolves to a block that is scoped where the `if` stands. -/
theorem resolveOtherwise_scoped : (o : Otherwise) → ∀ {site : Site} {span : Span} {cond : Expr} {body : Script.Block}
    {block : Block}, resolveOtherwise (site.context m) o = .ok (some block) → Occurs m site (.stmt (.if_ span cond body o)) →
    OtherwiseScoped m site block
  | .block inner, site, span, cond, body, block, h, ho => by
    unfold resolveOtherwise at h
    obtain ⟨block, hblock, h⟩ := bind_eq_ok.mp h
    obtain rfl := Option.some.inj (Except.ok.inj h)
    obtain ⟨names, hb⟩ := resolveBlock_scoped inner hblock fun names hd => ho.body (by simp [Site.bodies]) hd
    exact .block hb
  | .elseIf innerSpan innerCond innerBody otherwise, site, span, cond, body, block, h, ho => by
    unfold resolveOtherwise at h
    rw [← Site.context_elseIf] at h
    have hinner := ho.elseIf
    obtain ⟨e, he, h⟩ := bind_eq_ok.mp h
    obtain ⟨block, hblock, h⟩ := bind_eq_ok.mp h
    obtain ⟨other, hother, h⟩ := bind_eq_ok.mp h
    obtain rfl := Option.some.inj (Except.ok.inj h)
    obtain ⟨names, hb⟩ := resolveBlock_scoped innerBody hblock fun names hd =>
      hinner.body (by cases otherwise <;> simp [Site.bodies]) hd
    refine .elseIf (.if_ (resolveExpr_scoped innerCond he (hinner.expr (List.mem_singleton.mpr rfl))) hb fun b hb => ?_)
    subst hb
    exact resolveOtherwise_scoped otherwise hother hinner

end

/-- The resolution of a function depends on what is around it, and not on whether that is a loop or a function. -/
theorem resolveFunction_flags {home other : Site} (h : home.layers = other.layers) (s : Stmt) :
    resolveFunction (home.context m) s = resolveFunction (other.context m) s := by
  obtain ⟨layers, _, _⟩ := home
  obtain ⟨_, _, _⟩ := other
  obtain rfl : layers = _ := h
  cases s with
  | function span name params body =>
    cases body with
    | mk inner stmts => rfl
  | _ => rfl

end ScopedAux

open ScopedAux NamesAux

/-- A function is determined by the layers in which it is declared and its name. -/
theorem FunctionScoped.unique {m : Module} {home other : Site} {f g : Function} (hf : FunctionScoped m home f)
    (hg : FunctionScoped m other g) (hlayers : home.layers = other.layers) (hname : f.name = g.name) : f = g := by
  cases hf with
  | mk hof hrf _ =>
    cases hg with
    | mk hog hrg _ =>
      obtain heq := hof.function_unique hog hlayers hname
      rw [resolveFunction_flags hlayers, heq] at hrf
      exact Option.some.inj (Except.ok.inj (hrf.symm.trans hrg))

/-- A program is scoped: its outermost block is. -/
def Scoped (m : Module) (program : Program) : Prop :=
  ∃ names, BodyScoped m Site.outermost [] m.stmts names program.body

/-- Every script that is resolved is scoped. -/
theorem ofModule_scoped {m : Module} {program : Program} (h : ofModule m = .ok program) : Scoped m program := by
  unfold ofModule at h
  obtain ⟨ctx, hctx, h⟩ := bind_eq_ok.mp h
  obtain ⟨⟨functions, body⟩, hbody, h⟩ := bind_eq_ok.mp h
  obtain rfl := Except.ok.inj h
  obtain ⟨names, rfl, hd⟩ := enter_ok Site.outermost hctx
  have hinside := Occurs.program hd
  obtain ⟨hfunctions, hstmts⟩ := resolveStmts_scoped m.stmts hbody fun s hs => hinside.stmt hs
  exact ⟨names, .mk hd (resolveStmts_matches hbody) hfunctions hstmts⟩

end HostScript.Program
