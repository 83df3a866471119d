import Mathlib
import HostScript.Proofs.Program.Nodes
import HostScript.Proofs.Program.Scoped

/-!
# Uses of the host

A script uses its host through the alias of the import: `alias.output(e)`, `alias.input(e)` and `alias.exports`. A resolved program has
nodes of its own for these. `ofModule_faithful` says that the two stand in a one-to-one correspondence, that the alias stands nowhere else
in the script, and that nothing in the program is named like it.
-/

namespace HostScript

namespace Script

open Program (Part)

/-! ## The parts of a script -/

mutual

/-- An expression and all expressions in it, in the order in which they are written. -/
def Expr.parts : Expr → List Part
  | .null span => [.expr (.null span)]
  | .bool span b => [.expr (.bool span b)]
  | .number span n => [.expr (.number span n)]
  | .string span text => [.expr (.string span text)]
  | .rawString span text => [.expr (.rawString span text)]
  | .var span name => [.expr (.var span name)]
  | .array span items => .expr (.array span items) :: Expr.allParts items
  | .object span fields => .expr (.object span fields) :: Expr.fieldParts fields
  | .call span callee args => .expr (.call span callee args) :: (callee.parts ++ Expr.allParts args)
  | .unary span op operand => .expr (.unary span op operand) :: operand.parts
  | .member span base field => .expr (.member span base field) :: base.parts
  | .index span base key => .expr (.index span base key) :: (base.parts ++ key.parts)
  | .binary span op left right => .expr (.binary span op left right) :: (left.parts ++ right.parts)

/-- All expressions in expressions. -/
def Expr.allParts : List Expr → List Part
  | [] => []
  | e :: rest => e.parts ++ Expr.allParts rest

/-- All expressions in the fields of an object. -/
def Expr.fieldParts : List (Span × Expr × Expr) → List Part
  | [] => []
  | (_, key, value) :: rest => key.parts ++ value.parts ++ Expr.fieldParts rest

end

/-- A target, its bases and all expressions in it. -/
def Expr.targetParts : Expr → List Part
  | .var span name => [.target (.var span name)]
  | .member span base field => .target (.member span base field) :: base.targetParts
  | .index span base key => .target (.index span base key) :: (base.targetParts ++ key.parts)
  | e => e.parts

mutual

/-- All expressions and targets in a statement. -/
def Stmt.parts : Stmt → List Part
  | .let_ _ _ value => value.parts
  | .assign _ target value => target.targetParts ++ value.parts
  | .function _ _ _ body => body.parts
  | .if_ _ cond body otherwise => cond.parts ++ (body.parts ++ otherwise.parts)
  | .while_ _ cond body => cond.parts ++ body.parts
  | .return_ _ none | .break_ _ | .continue_ _ => []
  | .return_ _ (some value) => value.parts
  | .block body => body.parts
  | .expr _ e => e.parts

/-- All expressions and targets in a block. -/
def Block.parts : Block → List Part
  | .mk _ stmts => Stmt.allParts stmts

/-- All expressions and targets in what follows the block of an `if`. -/
def Otherwise.parts : Otherwise → List Part
  | .nothing => []
  | .block body => body.parts
  | .elseIf _ cond body otherwise => cond.parts ++ (body.parts ++ otherwise.parts)

/-- All expressions and targets in statements. -/
def Stmt.allParts : List Stmt → List Part
  | [] => []
  | s :: rest => s.parts ++ Stmt.allParts rest

end

/-- All expressions and targets in a script. -/
def Module.parts (m : Module) : List Part := Stmt.allParts m.stmts

end Script

namespace Program

open Script (Expr Stmt Ident Module Otherwise)

/-- The alias of the host, where it stands as a variable: in an expression or at the root of a target. -/
def Part.alias? (host : Option String) : Part → Option Ident
  | .expr (.var span name) | .target (.var span name) => if host == some name then some ⟨span, name⟩ else none
  | _ => none

/-- A use of the host in a script, with the alias where it stands. -/
inductive Use
  | output (base : Ident) (span : Span) (value : Expr)
  | input (base : Ident) (span : Span) (prompt : Expr)
  /-- The exports as a value. -/
  | exports (base : Ident)
  /-- The exports as what is assigned to, or to a path into which. -/
  | target (base : Ident)

/-- The alias through which the host is used. -/
def Use.base : Use → Ident
  | .output base _ _ | .input base _ _ | .exports base | .target base => base

/-- The use of the host that a part is. -/
def Part.use? (host : Option String) : Part → Option Use
  | .expr (.call span (.member _ (.var base name) field) [arg]) =>
    if host == some name then
      if field.name == "output" then some (.output ⟨base, name⟩ span arg)
      else if field.name == "input" then some (.input ⟨base, name⟩ span arg)
      else none
    else none
  | .expr (.member _ (.var base name) field) => if host == some name && field.name == "exports" then some (.exports ⟨base, name⟩) else none
  | .target (.member _ (.var base name) field) => if host == some name && field.name == "exports" then some (.target ⟨base, name⟩) else none
  | _ => none

/-- What a program does with its host. -/
inductive Capability
  | output (span : Span) (value : Expression)
  | input (span : Span) (prompt : Expression)
  | exports
  | target

/-- What a node does with the host. -/
def Node.capability? : Node → Option Capability
  | .expr (.output span value) => some (.output span value)
  | .expr (.input span prompt) => some (.input span prompt)
  | .expr .exports => some .exports
  | .place (.exports _ _) => some .target
  | _ => none

/-- The names of variables, parameters and functions that a node declares, reads, calls or assigns to. -/
def Node.names : Node → List String
  | .expr (.local_ _ name) | .expr (.call _ name _) | .place (.local_ _ name _) | .stmt (.let_ name _) => [name]
  | .block body => body.locals
  | .function f => f.name :: f.params
  | _ => []

/-! ## The correspondence -/

/-- What a use of the host resolves to. The argument of a call resolves to what the node writes or asks. -/
inductive Use.Resolves (host : Option String) : Use → Capability → Prop
  | output {base : Ident} {span : Span} {value : Expr} {e : Expression} {ctx : Context} (hhost : host = some base.name)
    (hctx : ctx.host = host) (h : resolveExpr ctx value = .ok e) : Use.Resolves host (.output base span value) (.output span e)
  | input {base : Ident} {span : Span} {prompt : Expr} {e : Expression} {ctx : Context} (hhost : host = some base.name)
    (hctx : ctx.host = host) (h : resolveExpr ctx prompt = .ok e) : Use.Resolves host (.input base span prompt) (.input span e)
  | exports {base : Ident} (hhost : host = some base.name) : Use.Resolves host (.exports base) .exports
  | target {base : Ident} (hhost : host = some base.name) : Use.Resolves host (.target base) .target

/-- Each use of the host resolves to one capability, and each capability is what one use resolves to. -/
def Corresponds (host : Option String) (uses : List Use) (capabilities : List Capability) : Prop :=
  ∃ row, row.Perm capabilities ∧ List.Forall₂ (Use.Resolves host) uses row

/-- Nodes use the host as the parts do from which they are made, the parts use the alias for nothing else, and the nodes do not name it. -/
structure Faithful (host : Option String) (parts : List Part) (nodes : List Node) : Prop where
  corresponds : Corresponds host (parts.filterMap (Part.use? host)) (nodes.filterMap Node.capability?)
  bases : parts.filterMap (Part.alias? host) = (parts.filterMap (Part.use? host)).map Use.base
  names : ∀ node ∈ nodes, ∀ name ∈ node.names, host ≠ some name

namespace Faithful

variable {host : Option String} {parts more : List Part} {nodes others : List Node} {part : Part} {node : Node}

/-- No nodes are faithful to no parts. -/
theorem nil : Faithful host [] [] := ⟨⟨[], .nil, .nil⟩, rfl, List.forall_mem_nil _⟩

/-- Nodes one behind the other are faithful to parts one behind the other. -/
theorem append (h : Faithful host parts nodes) (hmore : Faithful host more others) : Faithful host (parts ++ more) (nodes ++ others) := by
  obtain ⟨⟨row, hperm, hall⟩, hbases, hnames⟩ := h
  obtain ⟨⟨row', hperm', hall'⟩, hbases', hnames'⟩ := hmore
  refine ⟨⟨row ++ row', ?_, ?_⟩, ?_, List.forall_mem_append.mpr ⟨hnames, hnames'⟩⟩
  · rw [List.filterMap_append]
    exact hperm.append hperm'
  · rw [List.filterMap_append]
    exact List.rel_append hall hall'
  · rw [List.filterMap_append, List.filterMap_append, List.map_append, hbases, hbases']

/-- The order of the nodes does not matter. -/
theorem perm (h : Faithful host parts nodes) (hperm : nodes.Perm others) : Faithful host parts others := by
  obtain ⟨row, hrow, hall⟩ := h.corresponds
  exact ⟨⟨row, hrow.trans (hperm.filterMap _), hall⟩, h.bases, fun node hnode => h.names node (hperm.mem_iff.mpr hnode)⟩

/-- A part that is no use of the host and is not its alias. -/
theorem consPart (h : Faithful host parts nodes) (huse : part.use? host = none) (halias : part.alias? host = none) :
    Faithful host (part :: parts) nodes := by
  refine ⟨?_, ?_, h.names⟩
  · rw [List.filterMap_cons_none huse]
    exact h.corresponds
  · rw [List.filterMap_cons_none huse, List.filterMap_cons_none halias]
    exact h.bases

/-- A node that does nothing with the host and does not name it. -/
theorem consNode (h : Faithful host parts nodes) (hcapability : node.capability? = none)
    (hnames : ∀ name ∈ node.names, host ≠ some name) : Faithful host parts (node :: nodes) := by
  refine ⟨?_, h.bases, List.forall_mem_cons.mpr ⟨hnames, h.names⟩⟩
  rw [List.filterMap_cons_none hcapability]
  exact h.corresponds

/-- A part and a node that have nothing to do with the host. -/
theorem cons (h : Faithful host parts nodes) (huse : part.use? host = none) (halias : part.alias? host = none)
    (hcapability : node.capability? = none) (hnames : ∀ name ∈ node.names, host ≠ some name) :
    Faithful host (part :: parts) (node :: nodes) :=
  (h.consNode hcapability hnames).consPart huse halias

/-- The parts of a use of the host, and the node to which it resolves. -/
theorem use {front : List Part} {use : Use} {capability : Capability} (h : Faithful host parts nodes)
    (huse : front.filterMap (Part.use? host) = [use]) (hbase : front.filterMap (Part.alias? host) = [use.base])
    (hcapability : node.capability? = some capability) (hresolves : use.Resolves host capability) (hnames : node.names = []) :
    Faithful host (front ++ parts) (node :: nodes) := by
  obtain ⟨⟨row, hperm, hall⟩, hbases, hrest⟩ := h
  refine ⟨⟨capability :: row, ?_, ?_⟩, ?_, List.forall_mem_cons.mpr ⟨by rw [hnames]; exact List.forall_mem_nil _, hrest⟩⟩
  · rw [List.filterMap_cons_some hcapability]
    exact hperm.cons capability
  · rw [List.filterMap_append, huse]
    exact .cons hresolves hall
  · rw [List.filterMap_append, List.filterMap_append, huse, hbase, List.map_append, hbases]
    rfl

end Faithful

/-! ## Resolved expressions -/

open NamesAux (bind_eq_ok)
open ScopedAux (resolveVar_ok resolveCallee_ok resolveCapability_ok resolveHostMember_ok)

/-- No name is bound like the alias of the host. -/
def Context.Reserves (ctx : Context) : Prop := ∀ name, ctx.host = some name → ctx.lookup name = none ∧ Builtin.ofName? name = none

variable {ctx : Context}

/-- A name that is bound is not the alias. -/
theorem Context.Reserves.ne (h : ctx.Reserves) {name : String} {binding : Binding} (hbound : ctx.lookup name = some binding) :
    ctx.host ≠ some name := by
  intro heq
  rw [(h name heq).1] at hbound
  contradiction

/-- A name that is bound to a value is not the alias of the host. -/
theorem Context.Reserves.bindsValue (h : ctx.Reserves) {name : String} (hbinds : ctx.BindsValue name) : ctx.host ≠ some name :=
  hbinds.elim h.ne h.ne

/-- What is called by name is not called like the alias. -/
theorem Context.Reserves.callee (h : ctx.Reserves) {span nameSpan : Span} {name : String} {count : Nat}
    {call : List Expression → Expression} (hcall : resolveCallee ctx span nameSpan name count = .ok call) : ctx.host ≠ some name := by
  rcases resolveCallee_ok hcall with ⟨-, hbound⟩ | ⟨function, -, hfunction, -⟩
  · exact h.ne hbound
  · intro heq
    rw [(h name heq).2] at hfunction
    contradiction

/-- A variable that is not named like the host is no alias. -/
theorem alias?_expr {name : String} (h : ctx.host ≠ some name) (span : Span) : Part.alias? ctx.host (.expr (.var span name)) = none :=
  if_neg fun heq => h (beq_iff_eq.mp heq)

/-- A variable that is named like the host is an alias, in an expression and as a target. -/
theorem alias?_self (span : Span) (name : String) : Part.alias? (some name) (.expr (.var span name)) = some ⟨span, name⟩ ∧
    Part.alias? (some name) (.target (.var span name)) = some ⟨span, name⟩ :=
  ⟨if_pos (beq_self_eq_true _), if_pos (beq_self_eq_true _)⟩

/-- A target that is not named like the host is no alias. -/
theorem alias?_target {name : String} (h : ctx.host ≠ some name) (span : Span) : Part.alias? ctx.host (.target (.var span name)) = none :=
  if_neg fun heq => h (beq_iff_eq.mp heq)

/-- Members of what is not the alias are no uses of the host. -/
theorem use?_member {base : Expr} (h : ctx.isHostVar base = false) (span : Span) (field : Ident) :
    Part.use? ctx.host (.expr (.member span base field)) = none ∧ Part.use? ctx.host (.target (.member span base field)) = none := by
  cases base with
  | var baseSpan name =>
    have hname : (ctx.host == some name) = false := h
    simp [Part.use?, hname]
  | _ => exact ⟨rfl, rfl⟩

/-- The expression that is the alias. -/
theorem isHostVar_eq {base : Expr} (h : ctx.isHostVar base = true) : ∃ span name, base = .var span name ∧ ctx.host = some name := by
  cases base with
  | var span name => exact ⟨span, name, rfl, beq_iff_eq.mp h⟩
  | _ => contradiction

/-- A call of a member of the alias begins with the call, the member and the alias. -/
theorem use?_call {host : Option String} {name : String} (h : host = some name) (span memberSpan baseSpan : Span) (field : Ident)
    (arg : Expr) :
    let front : List Part := [.expr (.call span (.member memberSpan (.var baseSpan name) field) [arg]),
      .expr (.member memberSpan (.var baseSpan name) field), .expr (.var baseSpan name)]
    (field.name = "output" → front.filterMap (Part.use? host) = [.output ⟨baseSpan, name⟩ span arg]) ∧
      (field.name = "input" → front.filterMap (Part.use? host) = [.input ⟨baseSpan, name⟩ span arg]) ∧
      front.filterMap (Part.alias? host) = [⟨baseSpan, name⟩] := by
  subst h
  refine ⟨fun hfield => ?_, fun hfield => ?_, ?_⟩
  · simp [Part.use?, hfield]
  · simp [Part.use?, hfield]
  · rw [List.filterMap_cons_none rfl, List.filterMap_cons_none rfl, List.filterMap_cons_some (alias?_self baseSpan name).1]
    rfl

/-- The exports of the alias, as a value and as the root of a target. -/
theorem use?_exports {host : Option String} {name : String} (h : host = some name) {field : Ident} (hfield : field.name = "exports")
    (span baseSpan : Span) :
    [Part.expr (.member span (.var baseSpan name) field), .expr (.var baseSpan name)].filterMap (Part.use? host) =
        [.exports ⟨baseSpan, name⟩] ∧
      [Part.target (.member span (.var baseSpan name) field), .target (.var baseSpan name)].filterMap (Part.use? host) =
        [.target ⟨baseSpan, name⟩] ∧
      [Part.expr (.member span (.var baseSpan name) field), .expr (.var baseSpan name)].filterMap (Part.alias? host) =
        [⟨baseSpan, name⟩] ∧
      [Part.target (.member span (.var baseSpan name) field), .target (.var baseSpan name)].filterMap (Part.alias? host) =
        [⟨baseSpan, name⟩] := by
  subst h
  refine ⟨by simp [Part.use?, hfield], by simp [Part.use?, hfield], ?_, ?_⟩
  · rw [List.filterMap_cons_none rfl, List.filterMap_cons_some (alias?_self baseSpan name).1]
    rfl
  · rw [List.filterMap_cons_none rfl, List.filterMap_cons_some (alias?_self baseSpan name).2]
    rfl

mutual

/-- What an expression resolves to uses the host as the expression does. -/
theorem resolveExpr_faithful (hctx : ctx.Reserves) : (x : Expr) → ∀ {e : Expression}, resolveExpr ctx x = .ok e →
    Faithful ctx.host x.parts e.nodes
  | .null _, e, h | .bool _ _, e, h | .number _ _, e, h | .string _ _, e, h | .rawString _ _, e, h => by
    obtain rfl := Except.ok.inj h
    exact .cons .nil rfl rfl rfl nofun
  | .var span name, e, h => by
    obtain ⟨rfl, hbinds⟩ := resolveVar_ok h
    have hname := hctx.bindsValue hbinds
    exact .cons .nil rfl (alias?_expr hname span) rfl (List.forall_mem_singleton.mpr hname)
  | .array span items, e, h => by
    unfold resolveExpr at h
    obtain ⟨all, hall, h⟩ := bind_eq_ok.mp h
    obtain rfl := Except.ok.inj h
    exact (resolveExprs_faithful hctx items hall).cons rfl rfl rfl nofun
  | .object span fields, e, h => by
    unfold resolveExpr at h
    obtain ⟨all, hall, h⟩ := bind_eq_ok.mp h
    obtain rfl := Except.ok.inj h
    exact (resolveFields_faithful hctx fields hall).cons rfl rfl rfl nofun
  | .call span callee args, e, h => by
    unfold resolveExpr at h
    split at h
    -- A function or a builtin is called. Neither is named like the host.
    · rename_i nameSpan name
      obtain ⟨call, hcall, h⟩ := bind_eq_ok.mp h
      obtain ⟨all, hall, h⟩ := bind_eq_ok.mp h
      obtain rfl := Except.ok.inj h
      have hname := hctx.callee hcall
      have hargs : Faithful ctx.host (.expr (.var nameSpan name) :: Expr.allParts args) (Expression.allNodes all) :=
        (resolveExprs_faithful hctx args hall).consPart rfl (alias?_expr hname nameSpan)
      rcases resolveCallee_ok hcall with ⟨rfl, -⟩ | ⟨function, rfl, -⟩
      · exact hargs.cons rfl rfl rfl (List.forall_mem_singleton.mpr hname)
      · exact hargs.cons rfl rfl rfl nofun
    · split at h
      -- A member of the host is called. The alias is its base, and the argument is the only part of the call that is resolved.
      · rename_i memberSpan base field hhost
        obtain ⟨call, hcall, h⟩ := bind_eq_ok.mp h
        obtain ⟨all, hall, h⟩ := bind_eq_ok.mp h
        obtain rfl := Except.ok.inj h
        obtain ⟨baseSpan, name, rfl, hname⟩ := isHostVar_eq hhost
        obtain ⟨hcount, hcapability⟩ := resolveCapability_ok hcall
        obtain ⟨arg, rfl⟩ := List.length_eq_one_iff.mp hcount
        unfold resolveExprs at hall
        obtain ⟨first, hfirst, hall⟩ := bind_eq_ok.mp hall
        obtain rfl := Except.ok.inj hall
        have harg : Faithful ctx.host (Expr.allParts [arg]) first.nodes := by
          rw [Expr.allParts, Expr.allParts, List.append_nil]
          exact resolveExpr_faithful hctx arg hfirst
        obtain ⟨houtput, hinput, hbase⟩ := use?_call hname span memberSpan baseSpan field arg
        rcases hcapability with ⟨hfield, rfl⟩ | ⟨hfield, rfl⟩
        · exact harg.use (houtput hfield) hbase rfl (.output hname rfl hfirst) rfl
        · exact harg.use (hinput hfield) hbase rfl (.input hname rfl hfirst) rfl
      · obtain ⟨_, _, h⟩ := bind_eq_ok.mp h
        nomatch h
    · obtain ⟨_, _, h⟩ := bind_eq_ok.mp h
      nomatch h
  | .unary span op operand, e, h => by
    unfold resolveExpr at h
    obtain ⟨first, hfirst, h⟩ := bind_eq_ok.mp h
    obtain rfl := Except.ok.inj h
    exact (resolveExpr_faithful hctx operand hfirst).cons rfl rfl rfl nofun
  | .member span base field, e, h => by
    unfold resolveExpr at h
    split at h
    · rename_i hhost
      obtain ⟨baseSpan, name, rfl, hname⟩ := isHostVar_eq hhost
      obtain ⟨hfield, rfl⟩ := resolveHostMember_ok h
      obtain ⟨huse, -, hbase⟩ := use?_exports hname hfield span baseSpan
      exact Faithful.nil.use huse hbase.1 rfl (.exports hname) rfl
    · rename_i hhost
      obtain ⟨first, hfirst, h⟩ := bind_eq_ok.mp h
      obtain rfl := Except.ok.inj h
      have huse := use?_member (Bool.eq_false_iff.mpr hhost) span field
      exact (resolveExpr_faithful hctx base hfirst).cons huse.1 rfl rfl nofun
  | .index span base key, e, h => by
    unfold resolveExpr at h
    obtain ⟨first, hfirst, h⟩ := bind_eq_ok.mp h
    obtain ⟨second, hsecond, h⟩ := bind_eq_ok.mp h
    obtain rfl := Except.ok.inj h
    exact ((resolveExpr_faithful hctx base hfirst).append (resolveExpr_faithful hctx key hsecond)).cons rfl rfl rfl nofun
  | .binary span op left right, e, h => by
    unfold resolveExpr at h
    obtain ⟨first, hfirst, h⟩ := bind_eq_ok.mp h
    obtain ⟨second, hsecond, h⟩ := bind_eq_ok.mp h
    have hboth := (resolveExpr_faithful hctx left hfirst).append (resolveExpr_faithful hctx right hsecond)
    obtain rfl := Except.ok.inj h
    cases op with
    | arith op => exact hboth.cons rfl rfl rfl nofun
    | compare op => exact hboth.cons rfl rfl rfl nofun
    | logic op => exact hboth.cons rfl rfl rfl nofun

/-- Expressions that resolve are faithful to what is written, one by one. -/
theorem resolveExprs_faithful (hctx : ctx.Reserves) : (xs : List Expr) → ∀ {es : List Expression}, resolveExprs ctx xs = .ok es →
    Faithful ctx.host (Expr.allParts xs) (Expression.allNodes es)
  | [], es, h => by
    obtain rfl := Except.ok.inj h
    exact .nil
  | x :: xs, es, h => by
    unfold resolveExprs at h
    obtain ⟨first, hfirst, h⟩ := bind_eq_ok.mp h
    obtain ⟨rest, hrest, h⟩ := bind_eq_ok.mp h
    obtain rfl := Except.ok.inj h
    exact (resolveExpr_faithful hctx x hfirst).append (resolveExprs_faithful hctx xs hrest)

/-- Fields that resolve are faithful to what is written, one by one. -/
theorem resolveFields_faithful (hctx : ctx.Reserves) : (fields : List (Span × Expr × Expr)) → ∀ {all : List (Expression × Expression)},
    resolveFields ctx fields = .ok all → Faithful ctx.host (Expr.fieldParts fields) (Expression.fieldNodes all)
  | [], all, h => by
    obtain rfl := Except.ok.inj h
    exact .nil
  | (span, key, value) :: fields, all, h => by
    unfold resolveFields at h
    obtain ⟨first, hfirst, h⟩ := bind_eq_ok.mp h
    obtain ⟨second, hsecond, h⟩ := bind_eq_ok.mp h
    obtain ⟨rest, hrest, h⟩ := bind_eq_ok.mp h
    obtain rfl := Except.ok.inj h
    exact ((resolveExpr_faithful hctx key hfirst).append (resolveExpr_faithful hctx value hsecond)).append
      (resolveFields_faithful hctx fields hrest)

end

/-- What a target resolves to uses the host as the target does. The steps that have been resolved stand behind it. -/
theorem resolvePlace_faithful (hctx : ctx.Reserves) {whole : Span} : (x : Expr) → ∀ {path : List PathSegment} {place : Place}
    {behind : List Part}, resolvePlace ctx whole path x = .ok place → Faithful ctx.host behind (pathNodes path) →
    Faithful ctx.host (x.targetParts ++ behind) place.nodes
  | .member span base field, path, place, behind, h, hpath => by
    unfold resolvePlace refuse at h
    split at h
    · rename_i hhost
      obtain ⟨baseSpan, name, rfl, hname⟩ := isHostVar_eq hhost
      split at h
      · rename_i hfield
        obtain rfl := Except.ok.inj h
        obtain ⟨-, huse, -, hbase⟩ := use?_exports hname (eq_of_beq hfield) span baseSpan
        exact hpath.use huse hbase rfl (.target hname) rfl
      · cases h
    · rename_i hhost
      have huse := use?_member (Bool.eq_false_iff.mpr hhost) span field
      exact (resolvePlace_faithful hctx base h hpath).consPart huse.2 rfl
  | .index span base key, path, place, behind, h, hpath => by
    unfold resolvePlace at h
    obtain ⟨first, hfirst, h⟩ := bind_eq_ok.mp h
    have hkey := (resolveExpr_faithful hctx key hfirst).append hpath
    rw [Expr.targetParts, List.cons_append, List.append_assoc]
    exact (resolvePlace_faithful hctx base h hkey).consPart rfl rfl
  | .var span name, path, place, behind, h, hpath => by
    have hlocal : ∀ {binding : Binding}, ctx.lookup name = some binding →
        Faithful ctx.host (.target (.var span name) :: behind) (Place.local_ span name path).nodes := fun hbound =>
      hpath.cons rfl (alias?_target (hctx.ne hbound) span) rfl (List.forall_mem_singleton.mpr (hctx.ne hbound))
    unfold resolvePlace refuse at h
    split at h
    · rename_i hbound
      obtain rfl := Except.ok.inj h
      exact hlocal hbound
    · rename_i hbound
      obtain rfl := Except.ok.inj h
      exact hlocal hbound
    · cases h
    · split at h
      · cases h
      · cases h

/-! ## Declarations -/

open NamesAux (declaredName?)

/-- What is declared is not called like the alias, which stays unbound. -/
theorem declare_reserved {names after : Names} {ident : Ident} {binding : Binding} (h : ctx.declare names ident binding = .ok after) :
    ctx.host ≠ some ident.name ∧ ∀ name, ctx.host = some name → names.lookup name = none → after.lookup name = none := by
  have hident : ctx.host ≠ some ident.name := by
    unfold Context.declare refuse at h
    split at h
    · contradiction
    · rename_i hhost
      exact fun heq => hhost (beq_iff_eq.mpr heq)
  refine ⟨hident, fun name hname hnone => ?_⟩
  obtain ⟨-, rfl⟩ := NamesAux.declare_ok h
  have hne : (name == ident.name) = false := beq_false_of_ne fun heq => hident (heq ▸ hname)
  rw [List.lookup_cons, hne]
  exact hnone

/-- If parameters can be declared, none of them is the alias, and the alias is as free behind them as in front of them. -/
theorem params_reserved {params : List Ident} {names after : Names}
    (h : params.foldlM (fun names p => ctx.declare names p .param) names = .ok after) :
    (∀ p ∈ params, ctx.host ≠ some p.name) ∧ ∀ name, ctx.host = some name → names.lookup name = none → after.lookup name = none := by
  induction params generalizing names with
  | nil =>
    obtain rfl := Except.ok.inj h
    exact ⟨List.forall_mem_nil _, fun _ _ hnone => hnone⟩
  | cons p params ih =>
    rw [List.foldlM_cons] at h
    obtain ⟨next, hp, h⟩ := bind_eq_ok.mp h
    obtain ⟨hname, hnext⟩ := declare_reserved hp
    obtain ⟨hnames, hafter⟩ := ih h
    exact ⟨List.forall_mem_cons.mpr ⟨hname, hnames⟩, fun name halias hnone => hafter name halias (hnext name halias hnone)⟩

/-- A statement does not declare the alias of the host. -/
def Undeclared (host : Option String) (s : Stmt) : Prop := ∀ name, declaredName? s = some name → host ≠ some name

/-- A statement without a name does not declare the alias. -/
theorem undeclared_of_none {host : Option String} {s : Stmt} (h : declaredName? s = none) : Undeclared host s := by
  intro name hname
  rw [h] at hname
  contradiction

/-- If statements can be hoisted, none of them declares the alias, and it is as free behind them as in front of them. -/
theorem hoist_reserved {stmts : List Stmt} {names after : Names} (h : ctx.hoist names stmts = .ok after) :
    (∀ s ∈ stmts, Undeclared ctx.host s) ∧ ∀ name, ctx.host = some name → names.lookup name = none → after.lookup name = none := by
  induction stmts generalizing names with
  | nil =>
    obtain rfl := Except.ok.inj h
    exact ⟨List.forall_mem_nil _, fun _ _ hnone => hnone⟩
  | cons s stmts ih =>
    have declared : ∀ {ident : Ident} {binding : Binding} {next : Names}, ctx.declare names ident binding = .ok next →
        declaredName? s = some ident.name → ctx.hoist next stmts = .ok after → (∀ t ∈ s :: stmts, Undeclared ctx.host t) ∧
          ∀ name, ctx.host = some name → names.lookup name = none → after.lookup name = none := by
      intro ident binding next hdeclare hs h
      obtain ⟨hname, hnext⟩ := declare_reserved hdeclare
      obtain ⟨hstmts, hafter⟩ := ih h
      refine ⟨List.forall_mem_cons.mpr ⟨fun name hdeclared => ?_, hstmts⟩, fun name halias hnone => ?_⟩
      · obtain rfl := Option.some.inj (hs.symm.trans hdeclared)
        exact hname
      · exact hafter name halias (hnext name halias hnone)
    cases s with
    | let_ span ident value =>
      unfold Context.hoist at h
      obtain ⟨next, hnext, h⟩ := bind_eq_ok.mp h
      exact declared hnext rfl h
    | function span ident params body =>
      unfold Context.hoist at h
      obtain ⟨next, hnext, h⟩ := bind_eq_ok.mp h
      exact declared hnext rfl h
    | _ =>
      unfold Context.hoist at h
      obtain ⟨hstmts, hafter⟩ := ih h
      exact ⟨List.forall_mem_cons.mpr ⟨undeclared_of_none rfl, hstmts⟩, hafter⟩

/-- Inside a block or a function the alias stays unbound. -/
theorem enter_reserved {inner : Context} {params : List Ident} {stmts : List Stmt} (h : ctx.enter params stmts = .ok inner)
    (hctx : ctx.Reserves) :
    inner.host = ctx.host ∧ inner.Reserves ∧ (∀ p ∈ params, ctx.host ≠ some p.name) ∧ ∀ s ∈ stmts, Undeclared ctx.host s := by
  unfold Context.enter at h
  obtain ⟨first, hfirst, h⟩ := bind_eq_ok.mp h
  obtain ⟨names, hnames, h⟩ := bind_eq_ok.mp h
  obtain rfl := Except.ok.inj h
  obtain ⟨hparams, hbound⟩ := params_reserved hfirst
  obtain ⟨hstmts, hhoisted⟩ := hoist_reserved hnames
  refine ⟨rfl, fun name hname => ⟨?_, (hctx name hname).2⟩, hparams, hstmts⟩
  have hnone := hhoisted name hname (hbound name hname rfl)
  rw [Context.lookup, List.findSome?_cons, hnone]
  exact (hctx name hname).1

/-- If no statement of a block declares the alias, it is not among the names of the block. -/
theorem declaredLocals_reserved {host : Option String} {stmts : List Stmt} (h : ∀ s ∈ stmts, Undeclared host s) :
    ∀ name ∈ declaredLocals stmts, host ≠ some name := by
  intro name hname
  obtain ⟨s, hs, hdeclared⟩ := List.mem_filterMap.mp hname
  cases s with
  | let_ span ident value => exact h _ hs name hdeclared
  | _ => contradiction

/-! ## Resolved statements -/

/-- A `return` that is resolved stands in a function, and its value is resolved. -/
theorem resolveStmt_return {span : Span} {value : Option Expr} {stmt : Option Statement}
    (h : resolveStmt ctx (.return_ span value) = .ok stmt) :
    (value = none ∧ stmt = some (.return_ none)) ∨
      ∃ x e, value = some x ∧ resolveExpr ctx x = .ok e ∧ stmt = some (.return_ (some e)) := by
  unfold resolveStmt refuse at h
  cases hinside : ctx.inFunction with
  | false =>
    rw [hinside] at h
    nomatch h
  | true =>
    rw [hinside] at h
    cases value with
    | none => exact .inl ⟨rfl, (Except.ok.inj h).symm⟩
    | some x =>
      obtain ⟨e, he, h⟩ := bind_eq_ok.mp h
      exact .inr ⟨x, e, rfl, he, (Except.ok.inj h).symm⟩

/-- A declaration of a function is no statement of the program. -/
theorem resolveStmt_function {s : Stmt} {f : Function} {stmt : Option Statement} (h : resolveFunction ctx s = .ok (some f))
    (hstmt : resolveStmt ctx s = .ok stmt) : stmt = none := by
  cases s with
  | function span name params body => exact (Except.ok.inj hstmt).symm
  | _ => cases Except.ok.inj h

/-- What declares no function is a statement of the program. -/
theorem resolveStmt_some {s : Stmt} {stmt : Option Statement} (h : resolveFunction ctx s = .ok none)
    (hstmt : resolveStmt ctx s = .ok stmt) : ∃ st, stmt = some st := by
  cases s with
  | function span name params body =>
    obtain ⟨inner, stmts⟩ := body
    unfold resolveFunction at h
    obtain ⟨_, -, h⟩ := bind_eq_ok.mp h
    obtain ⟨_, -, h⟩ := bind_eq_ok.mp h
    cases Except.ok.inj h
  | let_ span name value | expr span e =>
    unfold resolveStmt at hstmt
    obtain ⟨_, -, h⟩ := bind_eq_ok.mp hstmt
    exact ⟨_, (Except.ok.inj h).symm⟩
  | assign span target value | while_ span cond body =>
    unfold resolveStmt at hstmt
    obtain ⟨_, -, h⟩ := bind_eq_ok.mp hstmt
    obtain ⟨_, -, h⟩ := bind_eq_ok.mp h
    exact ⟨_, (Except.ok.inj h).symm⟩
  | if_ span cond body otherwise =>
    unfold resolveStmt at hstmt
    obtain ⟨_, -, h⟩ := bind_eq_ok.mp hstmt
    obtain ⟨_, -, h⟩ := bind_eq_ok.mp h
    obtain ⟨_, -, h⟩ := bind_eq_ok.mp h
    exact ⟨_, (Except.ok.inj h).symm⟩
  | block body =>
    unfold resolveStmt at hstmt
    obtain ⟨_, -, h⟩ := bind_eq_ok.mp hstmt
    exact ⟨_, (Except.ok.inj h).symm⟩
  | return_ span value =>
    rcases resolveStmt_return hstmt with ⟨-, hreturn⟩ | ⟨x, e, -, -, hreturn⟩
    · exact ⟨_, hreturn⟩
    · exact ⟨_, hreturn⟩
  | break_ span | continue_ span =>
    unfold resolveStmt refuse at hstmt
    split at hstmt
    · exact ⟨_, (Except.ok.inj hstmt).symm⟩
    · contradiction

/-- The nodes of the block after an `else`, if there is one. -/
def otherwiseNodes : Option Block → List Node
  | none => []
  | some block => block.nodes

/-- The nodes of an `if`: itself, its condition, its block and what follows the block. -/
theorem if_nodes (cond : Expression) (body : Block) (otherwise : Option Block) : (Statement.if_ cond body otherwise).nodes =
    .stmt (.if_ cond body otherwise) :: (cond.nodes ++ (body.nodes ++ otherwiseNodes otherwise)) := by
  cases otherwise with
  | none => rw [otherwiseNodes, List.append_nil, Statement.nodes]
  | some block => rw [otherwiseNodes, Statement.nodes]

/-- Statements of the program follow the functions that are declared among them. -/
theorem Faithful.block {host : Option String} {stmts : List Stmt} {functions : List Function} {body : List Statement}
    (h : Faithful host (Stmt.allParts stmts) (Function.allNodes functions ++ Statement.allNodes body))
    (hstmts : ∀ s ∈ stmts, Undeclared host s) :
    Faithful host (Stmt.allParts stmts) (Block.mk (declaredLocals stmts) functions body).nodes :=
  h.consNode rfl (declaredLocals_reserved hstmts)

mutual

/-- What a statement resolves to uses the host as the statement does. -/
theorem resolveStmt_faithful : (s : Stmt) → ∀ {ctx : Context} {st : Statement}, ctx.Reserves → Undeclared ctx.host s →
    resolveStmt ctx s = .ok (some st) → Faithful ctx.host s.parts st.nodes
  | .let_ span name value, ctx, st, hctx, hs, h => by
    unfold resolveStmt at h
    obtain ⟨e, he, h⟩ := bind_eq_ok.mp h
    obtain rfl := Option.some.inj (Except.ok.inj h)
    exact (resolveExpr_faithful hctx value he).consNode rfl (List.forall_mem_singleton.mpr (hs _ rfl))
  | .assign span target value, ctx, st, hctx, _, h => by
    unfold resolveStmt at h
    obtain ⟨place, hplace, h⟩ := bind_eq_ok.mp h
    obtain ⟨e, he, h⟩ := bind_eq_ok.mp h
    obtain rfl := Option.some.inj (Except.ok.inj h)
    have htarget := resolvePlace_faithful hctx target hplace .nil
    rw [List.append_nil] at htarget
    exact (htarget.append (resolveExpr_faithful hctx value he)).consNode rfl nofun
  | .if_ span cond body otherwise, ctx, st, hctx, _, h => by
    unfold resolveStmt at h
    obtain ⟨e, he, h⟩ := bind_eq_ok.mp h
    obtain ⟨block, hblock, h⟩ := bind_eq_ok.mp h
    obtain ⟨other, hother, h⟩ := bind_eq_ok.mp h
    obtain rfl := Option.some.inj (Except.ok.inj h)
    have hcond := resolveExpr_faithful hctx cond he
    have hbody := resolveBlock_faithful body hctx hblock
    have hall := hcond.append (hbody.append (resolveOtherwise_faithful otherwise hctx hother))
    rw [if_nodes]
    exact hall.consNode rfl nofun
  | .while_ span cond body, ctx, st, hctx, _, h => by
    unfold resolveStmt at h
    obtain ⟨e, he, h⟩ := bind_eq_ok.mp h
    obtain ⟨block, hblock, h⟩ := bind_eq_ok.mp h
    obtain rfl := Option.some.inj (Except.ok.inj h)
    have hinside : Context.Reserves { ctx with inLoop := true } := fun name hname => hctx name hname
    have hbody := resolveBlock_faithful body hinside hblock
    exact ((resolveExpr_faithful hctx cond he).append hbody).consNode rfl nofun
  | .return_ span value, ctx, st, hctx, _, h => by
    rcases resolveStmt_return h with ⟨rfl, hreturn⟩ | ⟨x, e, rfl, he, hreturn⟩
    · obtain rfl := Option.some.inj hreturn
      exact Faithful.nil.consNode rfl nofun
    · obtain rfl := Option.some.inj hreturn
      exact (resolveExpr_faithful hctx x he).consNode rfl nofun
  | .break_ span, ctx, st, _, _, h => by
    unfold resolveStmt refuse at h
    split at h
    · obtain rfl := Option.some.inj (Except.ok.inj h)
      exact Faithful.nil.consNode rfl nofun
    · nomatch h
  | .continue_ span, ctx, st, _, _, h => by
    unfold resolveStmt refuse at h
    split at h
    · obtain rfl := Option.some.inj (Except.ok.inj h)
      exact Faithful.nil.consNode rfl nofun
    · nomatch h
  | .block body, ctx, st, hctx, _, h => by
    unfold resolveStmt at h
    obtain ⟨block, hblock, h⟩ := bind_eq_ok.mp h
    obtain rfl := Option.some.inj (Except.ok.inj h)
    exact (resolveBlock_faithful body hctx hblock).consNode rfl nofun
  | .expr span e, ctx, st, hctx, _, h => by
    unfold resolveStmt at h
    obtain ⟨first, hfirst, h⟩ := bind_eq_ok.mp h
    obtain rfl := Option.some.inj (Except.ok.inj h)
    exact (resolveExpr_faithful hctx e hfirst).consNode rfl nofun

/-- What the declaration of a function resolves to uses the host as the declaration does. -/
theorem resolveFunction_faithful : (s : Stmt) → ∀ {ctx : Context} {f : Function}, ctx.Reserves → Undeclared ctx.host s →
    resolveFunction ctx s = .ok (some f) → Faithful ctx.host s.parts f.nodes
  | .function span name params (.mk inner stmts), ctx, f, hctx, hs, h => by
    unfold resolveFunction at h
    obtain ⟨inside, hinside, h⟩ := bind_eq_ok.mp h
    obtain ⟨⟨functions, body⟩, hbody, h⟩ := bind_eq_ok.mp h
    obtain rfl := Option.some.inj (Except.ok.inj h)
    obtain ⟨hhost, hreserves, hparams, hstmts⟩ := enter_reserved hinside hctx
    have hall := resolveStmts_faithful stmts hreserves (by rw [hhost]; exact hstmts) hbody
    rw [hhost] at hall
    refine (hall.block hstmts).consNode rfl (List.forall_mem_cons.mpr ⟨hs _ rfl, ?_⟩)
    exact List.forall_mem_map.mpr hparams

/-- Statements that resolve are faithful to what is written, the functions in front of the others. -/
theorem resolveStmts_faithful : (stmts : List Stmt) → ∀ {ctx : Context} {functions : List Function} {body : List Statement},
    ctx.Reserves → (∀ s ∈ stmts, Undeclared ctx.host s) → resolveStmts ctx stmts = .ok (functions, body) →
    Faithful ctx.host (Stmt.allParts stmts) (Function.allNodes functions ++ Statement.allNodes body)
  | [], ctx, functions, body, _, _, h => by
    obtain ⟨rfl, rfl⟩ := Prod.mk.inj (Except.ok.inj h)
    exact .nil
  | s :: stmts, ctx, functions, body, hctx, hs, h => by
    obtain ⟨hfirst, hstmts⟩ := List.forall_mem_cons.mp hs
    unfold resolveStmts at h
    obtain ⟨function, hfunction, h⟩ := bind_eq_ok.mp h
    obtain ⟨stmt, hstmt, h⟩ := bind_eq_ok.mp h
    obtain ⟨⟨rest, others⟩, hrest, h⟩ := bind_eq_ok.mp h
    obtain ⟨rfl, rfl⟩ := Prod.mk.inj (Except.ok.inj h)
    have hall := resolveStmts_faithful stmts hctx hstmts hrest
    cases function with
    | some f =>
      obtain rfl := resolveStmt_function hfunction hstmt
      have hf := (resolveFunction_faithful s hctx hfirst hfunction).append hall
      rw [← List.append_assoc] at hf
      exact hf
    | none =>
      obtain ⟨st, rfl⟩ := resolveStmt_some hfunction hstmt
      -- the statement comes behind the functions
      exact ((resolveStmt_faithful s hctx hfirst hstmt).append hall).perm (List.perm_append_comm_assoc _ _ _)

/-- What a block resolves to uses the host as the block does. -/
theorem resolveBlock_faithful : (b : Script.Block) → ∀ {ctx : Context} {block : Block}, ctx.Reserves → resolveBlock ctx b = .ok block →
    Faithful ctx.host b.parts block.nodes
  | .mk span stmts, ctx, block, hctx, h => by
    unfold resolveBlock at h
    obtain ⟨inside, hinside, h⟩ := bind_eq_ok.mp h
    obtain ⟨⟨functions, body⟩, hbody, h⟩ := bind_eq_ok.mp h
    obtain rfl := Except.ok.inj h
    obtain ⟨hhost, hreserves, -, hstmts⟩ := enter_reserved hinside hctx
    have hall := resolveStmts_faithful stmts hreserves (by rw [hhost]; exact hstmts) hbody
    rw [hhost] at hall
    exact hall.block hstmts

/-- What follows the block of an `if` resolves to what uses the host as it does. -/
theorem resolveOtherwise_faithful : (o : Otherwise) → ∀ {ctx : Context} {other : Option Block}, ctx.Reserves →
    resolveOtherwise ctx o = .ok other → Faithful ctx.host o.parts (otherwiseNodes other)
  | .nothing, ctx, other, _, h => by
    obtain rfl := Except.ok.inj h
    exact .nil
  | .block body, ctx, other, hctx, h => by
    unfold resolveOtherwise at h
    obtain ⟨block, hblock, h⟩ := bind_eq_ok.mp h
    obtain rfl := Except.ok.inj h
    exact resolveBlock_faithful body hctx hblock
  | .elseIf span cond body otherwise, ctx, other, hctx, h => by
    unfold resolveOtherwise at h
    obtain ⟨e, he, h⟩ := bind_eq_ok.mp h
    obtain ⟨block, hblock, h⟩ := bind_eq_ok.mp h
    obtain ⟨inner, hinner, h⟩ := bind_eq_ok.mp h
    obtain rfl := Except.ok.inj h
    have hcond := resolveExpr_faithful hctx cond he
    have hbody := resolveBlock_faithful body hctx hblock
    have hall := hcond.append (hbody.append (resolveOtherwise_faithful otherwise hctx hinner))
    have hstmts : Faithful ctx.host (Otherwise.elseIf span cond body otherwise).parts (Statement.allNodes [.if_ e block inner]) := by
      rw [Statement.allNodes, Statement.allNodes, List.append_nil, if_nodes]
      exact hall.consNode rfl nofun
    exact hstmts.consNode rfl nofun

end

/-! ## Whole programs -/

/-- The uses of the host in a script. -/
def usesOf (m : Module) : List Use := m.parts.filterMap (Part.use? (m.host.map (·.host.name)))

/-- The alias of the host in a script, wherever it stands as a variable. -/
def aliasesOf (m : Module) : List Ident := m.parts.filterMap (Part.alias? (m.host.map (·.host.name)))

/-- What a program does with its host. -/
def capabilities (program : Program) : List Capability := program.body.nodes.filterMap Node.capability?

/-- The names of variables, parameters and functions in a program. -/
def names (program : Program) : List String := program.body.nodes.flatMap Node.names

/-- A script resolves to a program that uses the host as the script does. -/
theorem ofModule_faithful {m : Module} {program : Program} (h : ofModule m = .ok program)
    (hbuiltin : ∀ name, program.host = some name → Builtin.ofName? name = none) :
    program.host = m.host.map (·.host.name) ∧ Faithful program.host m.parts program.body.nodes := by
  unfold ofModule at h
  obtain ⟨inside, hinside, h⟩ := bind_eq_ok.mp h
  obtain ⟨⟨functions, body⟩, hbody, h⟩ := bind_eq_ok.mp h
  obtain rfl := Except.ok.inj h
  have hctx : Context.Reserves ⟨m.host.map (·.host.name), [], false, false⟩ := fun name hname => ⟨rfl, hbuiltin name hname⟩
  obtain ⟨hhost, hreserves, -, hstmts⟩ := enter_reserved hinside hctx
  have hall := resolveStmts_faithful m.stmts hreserves (by rw [hhost]; exact hstmts) hbody
  rw [hhost] at hall
  exact ⟨rfl, hall.block hstmts⟩

/-- Without a host nothing corresponds. -/
theorem Corresponds.no_host {uses : List Use} {capabilities : List Capability} (h : Corresponds none uses capabilities) :
    uses = [] ∧ capabilities = [] := by
  obtain ⟨row, hperm, hall⟩ := h
  cases hall with
  | nil => exact ⟨rfl, List.nil_perm.mp hperm⟩
  | cons hfirst _ => cases hfirst <;> contradiction

end Program

end HostScript
