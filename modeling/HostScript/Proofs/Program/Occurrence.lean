import Mathlib
import HostScript.Program.Resolve

/-!
# The parts of a script and where they stand

`Occurs m site part` says that a part of the script `m` stands at a site: inside which blocks and functions, from the innermost
outwards, and whether inside a loop and a function. `Site.context` is the context in which the resolver meets the part.

The blocks around a part are kept as the layers that they have at run time. They are told apart by their parameters and
statements, which carry spans. The `if` after an `else` is a layer too, in which no name is declared.
-/

namespace HostScript.Program

open Script (Expr Stmt Ident Module Otherwise)

/-- What opens a scope at run time. -/
inductive Layer
  /-- A block, or the body of a function with its parameters, and the names declared in it. -/
  | block (params : List Ident) (stmts : List Stmt) (names : Names)
  /-- The `if` after an `else`. -/
  | elseIf

/-- The names declared in a layer. -/
def Layer.names : Layer → Names
  | .block _ _ names => names
  | .elseIf => []

/-- The names of the blocks among some layers. -/
def Layer.blocks : List Layer → List Names
  | [] => []
  | .block _ _ names :: rest => names :: Layer.blocks rest
  | .elseIf :: rest => Layer.blocks rest

/-- A place in a script. -/
structure Site where
  /-- What is around it, the innermost first. -/
  layers : List Layer
  inLoop : Bool
  inFunction : Bool

namespace Site

/-- The place of the whole script. -/
def outermost : Site := ⟨[], false, false⟩

/-- The context in which the resolver meets a part at a site. -/
def context (m : Module) (site : Site) : Context :=
  ⟨m.host.map (·.host.name), Layer.blocks site.layers, site.inLoop, site.inFunction⟩

/-- The site inside a block or the body of a function. -/
def enter (site : Site) (params : List Ident) (stmts : List Stmt) (names : Names) : Site :=
  { site with layers := .block params stmts names :: site.layers }

/-- The site of the body of a loop. -/
def loop (site : Site) : Site := { site with inLoop := true }

/-- The site of the body of a function. -/
def function (site : Site) : Site := { site with inLoop := false, inFunction := true }

/-- The site of the `if` after an `else`. -/
def elseIf (site : Site) : Site := { site with layers := .elseIf :: site.layers }

@[simp] theorem context_elseIf (m : Module) (site : Site) : site.elseIf.context m = site.context m := rfl

/-- The blocks directly inside a statement: the sites around them, their parameters and their statements. -/
def bodies (site : Site) : Stmt → List (Site × List Ident × List Stmt)
  | .function _ _ params body => [(site.function, params, body.stmts)]
  | .if_ _ _ body (.block otherwise) => [(site, [], body.stmts), (site, [], otherwise.stmts)]
  | .if_ _ _ body _ => [(site, [], body.stmts)]
  | .while_ _ _ body => [(site.loop, [], body.stmts)]
  | .block body => [(site, [], body.stmts)]
  | _ => []

/-- The names are those that the resolver finds declared in a block. -/
def Declares (m : Module) (site : Site) (params : List Ident) (stmts : List Stmt) (names : Names) : Prop :=
  (site.context m).enter params stmts = .ok ((site.enter params stmts names).context m)

end Site

/-- The expressions directly inside a statement, without the target of an assignment. -/
def stmtExprs : Stmt → List Expr
  | .let_ _ _ value => [value]
  | .assign _ _ value => [value]
  | .if_ _ cond _ _ => [cond]
  | .while_ _ cond _ => [cond]
  | .return_ _ (some value) => [value]
  | .expr _ e => [e]
  | _ => []

/-- The expressions directly inside an expression. The name that a call calls is none of them. -/
def exprParts : Expr → List Expr
  | .array _ items => items
  | .object _ fields => fields.flatMap fun (_, key, value) => [key, value]
  | .call _ (.var _ _) args => args
  | .call _ callee args => callee :: args
  | .unary _ _ operand => [operand]
  | .member _ base _ => [base]
  | .index _ base key => [base, key]
  | .binary _ _ left right => [left, right]
  | _ => []

/-- A part of a script: the statements of a block, a statement, an expression, or a target or the base of one. -/
inductive Part
  | stmts (stmts : List Stmt)
  | stmt (stmt : Stmt)
  | expr (e : Expr)
  | target (e : Expr)

/-- A part of a script stands at a site. -/
inductive Occurs (m : Module) : Site → Part → Prop
  | program {names : Names} (h : Site.outermost.Declares m [] m.stmts names) :
    Occurs m (Site.outermost.enter [] m.stmts names) (.stmts m.stmts)
  | body {site outer : Site} {s : Stmt} {params : List Ident} {stmts : List Stmt} {names : Names}
    (h : Occurs m site (.stmt s)) (hs : (outer, params, stmts) ∈ site.bodies s) (hd : outer.Declares m params stmts names) :
    Occurs m (outer.enter params stmts names) (.stmts stmts)
  | elseIf {site : Site} {span inner : Span} {cond innerCond : Expr} {body innerBody : Script.Block} {otherwise : Otherwise}
    (h : Occurs m site (.stmt (.if_ span cond body (.elseIf inner innerCond innerBody otherwise)))) :
    Occurs m site.elseIf (.stmt (.if_ inner innerCond innerBody otherwise))
  | stmt {site : Site} {stmts : List Stmt} {s : Stmt} (h : Occurs m site (.stmts stmts)) (hs : s ∈ stmts) :
    Occurs m site (.stmt s)
  | expr {site : Site} {s : Stmt} {e : Expr} (h : Occurs m site (.stmt s)) (he : e ∈ stmtExprs s) : Occurs m site (.expr e)
  | part {site : Site} {e part : Expr} (h : Occurs m site (.expr e)) (he : part ∈ exprParts e) : Occurs m site (.expr part)
  | target {site : Site} {span : Span} {target value : Expr} (h : Occurs m site (.stmt (.assign span target value))) :
    Occurs m site (.target target)
  | memberBase {site : Site} {span : Span} {base : Expr} {field : Ident} (h : Occurs m site (.target (.member span base field))) :
    Occurs m site (.target base)
  | indexBase {site : Site} {span : Span} {base key : Expr} (h : Occurs m site (.target (.index span base key))) :
    Occurs m site (.target base)
  | indexKey {site : Site} {span : Span} {base key : Expr} (h : Occurs m site (.target (.index span base key))) :
    Occurs m site (.expr key)

/-! ## The names declared in a block -/

/-- The declarations among some statements. -/
def declarations (stmts : List Stmt) : Names :=
  stmts.filterMap fun
    | .let_ _ name _ => some (name.name, .variable)
    | .function _ name params _ => some (name.name, .function params.length)
    | _ => none

/-- The names are bound as they are declared, each in one way, and no others are bound. -/
structure Names.Of (names declared : Names) : Prop where
  bound : ∀ name binding, (name, binding) ∈ declared → names.lookup name = some binding
  only : ∀ name binding, names.lookup name = some binding → (name, binding) ∈ declared

namespace NamesAux

variable {ctx : Context}

/-- Sequencing of two parts that can be refused. -/
theorem bind_eq_ok {ε α β : Type} {r : Except ε α} {f : α → Except ε β} {b : β} :
    (r >>= f) = .ok b ↔ ∃ a, r = .ok a ∧ f a = .ok b := by
  cases r with
  | ok a => exact ⟨fun h => ⟨a, rfl, h⟩, fun ⟨_, ha, h⟩ => Except.ok.inj ha ▸ h⟩
  | error e => exact ⟨nofun, fun ⟨_, ha, _⟩ => nomatch ha⟩

/-- A declaration adds a name that was not declared before. -/
theorem declare_ok {names after : Names} {ident : Ident} {binding : Binding}
    (h : ctx.declare names ident binding = .ok after) :
    names.lookup ident.name = none ∧ after = (ident.name, binding) :: names := by
  unfold Context.declare refuse at h
  split at h
  · nomatch h
  · split at h
    · nomatch h
    · rename_i hnone
      exact ⟨by simpa only [Option.not_isSome_iff_eq_none] using hnone, (Except.ok.inj h).symm⟩

/-- A declaration is added to those before. -/
theorem of_declare {names after declared : Names} {ident : Ident} {binding : Binding}
    (h : ctx.declare names ident binding = .ok after) (hn : names.Of declared) :
    after.Of (declared ++ [(ident.name, binding)]) := by
  obtain ⟨fresh, rfl⟩ := declare_ok h
  have lookup : ∀ name, List.lookup name ((ident.name, binding) :: names)
      = if name == ident.name then some binding else names.lookup name := by
    intro name
    rw [List.lookup_cons]
    cases name == ident.name <;> rfl
  constructor
  · intro name b hb
    rw [lookup]
    rcases List.mem_append.mp hb with hb | hb
    · have hold := hn.bound name b hb
      have hne : (name == ident.name) = false := by
        rw [beq_eq_false_iff_ne]
        rintro rfl
        rw [fresh] at hold
        nomatch hold
      rw [hne]
      exact hold
    · obtain ⟨rfl, rfl⟩ := Prod.mk.inj (List.mem_singleton.mp hb)
      rw [beq_self_eq_true, if_pos rfl]
  · intro name b hb
    rw [lookup] at hb
    split at hb
    · rename_i heq
      obtain rfl := Option.some.inj hb
      rw [eq_of_beq heq]
      exact List.mem_append_right _ (List.mem_singleton.mpr rfl)
    · exact List.mem_append_left _ (hn.only name b hb)

/-- The names of the parameters. -/
theorem of_params {params : List Ident} {names after declared : Names}
    (h : params.foldlM (fun names p => ctx.declare names p .param) names = .ok after) (hn : names.Of declared) :
    after.Of (declared ++ params.map fun p => (p.name, .param)) := by
  induction params generalizing names declared with
  | nil =>
    obtain rfl := Except.ok.inj h
    simpa only [List.map_nil, List.append_nil] using hn
  | cons p params ih =>
    rw [List.foldlM_cons] at h
    obtain ⟨next, hp, h⟩ := bind_eq_ok.mp h
    have hall := ih h (of_declare hp hn)
    rwa [List.append_assoc, List.singleton_append] at hall

/-- The names of the declarations among the statements. -/
theorem of_hoist {stmts : List Stmt} {names after declared : Names} (h : ctx.hoist names stmts = .ok after)
    (hn : names.Of declared) : after.Of (declared ++ declarations stmts) := by
  induction stmts generalizing names declared with
  | nil =>
    obtain rfl := Except.ok.inj h
    simpa only [declarations, List.filterMap_nil, List.append_nil] using hn
  | cons s stmts ih =>
    cases s with
    | let_ span name value =>
      unfold Context.hoist at h
      obtain ⟨next, hs, h⟩ := bind_eq_ok.mp h
      have hall := ih h (of_declare hs hn)
      rwa [List.append_assoc, List.singleton_append] at hall
    | function span name params body =>
      unfold Context.hoist at h
      obtain ⟨next, hs, h⟩ := bind_eq_ok.mp h
      have hall := ih h (of_declare hs hn)
      rwa [List.append_assoc, List.singleton_append] at hall
    | _ =>
      unfold Context.hoist at h
      exact ih h hn

/-- The name that a statement declares in its block. -/
def declaredName? : Stmt → Option String
  | .let_ _ name _ => some name.name
  | .function _ name _ _ => some name.name
  | _ => none

/-- What is declared among some statements was not declared before. -/
theorem fresh_of_hoist {stmts : List Stmt} {names after : Names} (h : ctx.hoist names stmts = .ok after) {s : Stmt}
    (hs : s ∈ stmts) {name : String} (hname : declaredName? s = some name) : names.lookup name = none := by
  induction stmts generalizing names with
  | nil => nomatch hs
  | cons first stmts ih =>
    have declared : ∀ {ident : Ident} {binding : Binding} {next : Names}, ctx.declare names ident binding = .ok next →
        declaredName? first = some ident.name → ctx.hoist next stmts = .ok after → names.lookup name = none := by
      intro ident binding next hdeclare hfirst h
      obtain ⟨hnone, rfl⟩ := declare_ok hdeclare
      rcases List.mem_cons.mp hs with rfl | hs
      · obtain rfl := Option.some.inj (hfirst.symm.trans hname)
        exact hnone
      · have hlater := ih h hs
        rw [List.lookup_cons] at hlater
        cases heq : name == ident.name with
        | true => rw [heq] at hlater; nomatch hlater
        | false => rw [heq] at hlater; exact hlater
    cases first with
    | let_ span ident value =>
      unfold Context.hoist at h
      obtain ⟨next, hnext, h⟩ := bind_eq_ok.mp h
      exact declared hnext rfl h
    | function span ident params body =>
      unfold Context.hoist at h
      obtain ⟨next, hnext, h⟩ := bind_eq_ok.mp h
      exact declared hnext rfl h
    | _ =>
      unfold Context.hoist at h
      rcases List.mem_cons.mp hs with rfl | hs
      · nomatch hname
      · exact ih h hs

/-- No name is declared twice among the statements of a block. -/
theorem unique_of_hoist {stmts : List Stmt} {names after : Names} (h : ctx.hoist names stmts = .ok after) {s t : Stmt}
    (hs : s ∈ stmts) (ht : t ∈ stmts) {name : String} (hsn : declaredName? s = some name) (htn : declaredName? t = some name) :
    s = t := by
  induction stmts generalizing names with
  | nil => nomatch hs
  | cons first stmts ih =>
    have declared : ∀ {ident : Ident} {binding : Binding} {next : Names}, ctx.declare names ident binding = .ok next →
        declaredName? first = some ident.name → ctx.hoist next stmts = .ok after → s = t := by
      intro ident binding next hdeclare hfirst h
      obtain ⟨_, rfl⟩ := declare_ok hdeclare
      have fresh : ∀ u ∈ stmts, declaredName? u = some name → name ≠ ident.name := by
        rintro u hu hun rfl
        have hnone := fresh_of_hoist h hu hun
        rw [List.lookup_cons_self] at hnone
        nomatch hnone
      rcases List.mem_cons.mp hs with rfl | hlater
      · rcases List.mem_cons.mp ht with rfl | htLater
        · rfl
        · exact absurd (Option.some.inj (hsn.symm.trans hfirst)) (fresh t htLater htn)
      · rcases List.mem_cons.mp ht with rfl | htLater
        · exact absurd (Option.some.inj (htn.symm.trans hfirst)) (fresh s hlater hsn)
        · exact ih h hlater htLater
    cases first with
    | let_ span ident value =>
      unfold Context.hoist at h
      obtain ⟨next, hnext, h⟩ := bind_eq_ok.mp h
      exact declared hnext rfl h
    | function span ident params body =>
      unfold Context.hoist at h
      obtain ⟨next, hnext, h⟩ := bind_eq_ok.mp h
      exact declared hnext rfl h
    | _ =>
      unfold Context.hoist at h
      rcases List.mem_cons.mp hs with rfl | hs
      · nomatch hsn
      · rcases List.mem_cons.mp ht with rfl | ht
        · nomatch htn
        · exact ih h hs ht

end NamesAux

open NamesAux

/-- What is declared in a block: its parameters and the declarations among its statements. -/
theorem Site.Declares.names_of {m : Module} {site : Site} {params : List Ident} {stmts : List Stmt} {names : Names}
    (h : site.Declares m params stmts names) :
    names.Of (params.map (fun p => (p.name, .param)) ++ declarations stmts) := by
  unfold Site.Declares Context.enter at h
  obtain ⟨first, hp, h⟩ := bind_eq_ok.mp h
  obtain ⟨all, hs, h⟩ := bind_eq_ok.mp h
  have hempty : Names.Of [] [] := ⟨nofun, nofun⟩
  have hall := of_hoist hs (of_params hp hempty)
  have hblocks : all :: Layer.blocks site.layers = names :: Layer.blocks site.layers :=
    congrArg Context.blocks (Except.ok.inj h)
  rw [← (List.cons.inj hblocks).1]
  exact hall

/-- The statements of a block stand inside its layer. -/
theorem Occurs.stmts_layer {m : Module} {site : Site} {stmts : List Stmt} (h : Occurs m site (.stmts stmts)) :
    ∃ (outer : Site) (params : List Ident) (names : Names),
      site = outer.enter params stmts names ∧ outer.Declares m params stmts names := by
  cases h with
  | program hd => exact ⟨_, _, _, rfl, hd⟩
  | body h hs hd => exact ⟨_, _, _, rfl, hd⟩

/-- A variable is declared in the layer in which its `let` stands. -/
theorem Occurs.let_layer {m : Module} {site : Site} {span : Span} {name : Ident} {value : Expr}
    (h : Occurs m site (.stmt (.let_ span name value))) :
    ∃ layer rest, site.layers = layer :: rest ∧ layer.names.lookup name.name = some .variable := by
  cases h with
  | stmt h hs =>
    obtain ⟨outer, params, names, rfl, hd⟩ := h.stmts_layer
    refine ⟨_, _, rfl, hd.names_of.bound _ _ (List.mem_append_right _ ?_)⟩
    exact List.mem_filterMap.mpr ⟨_, hs, rfl⟩

/-- Two functions of one name that are declared in the same layers are one. -/
theorem Occurs.function_unique {m : Module} {site other : Site} {span span' : Span} {name name' : Ident}
    {params params' : List Ident} {body body' : Script.Block} (h : Occurs m site (.stmt (.function span name params body)))
    (h' : Occurs m other (.stmt (.function span' name' params' body'))) (hlayers : site.layers = other.layers)
    (hname : name.name = name'.name) : Stmt.function span name params body = .function span' name' params' body' := by
  cases h with
  | stmt h hs =>
    cases h' with
    | stmt h' hs' =>
      obtain ⟨outer, ps, names, rfl, hd⟩ := h.stmts_layer
      obtain ⟨outer', ps', names', rfl, _⟩ := h'.stmts_layer
      have hblock := (List.cons.inj hlayers).1
      obtain ⟨_, rfl, _⟩ := Layer.block.inj hblock
      unfold Site.Declares Context.enter at hd
      obtain ⟨_, _, hd⟩ := bind_eq_ok.mp hd
      obtain ⟨_, hhoist, _⟩ := bind_eq_ok.mp hd
      exact unique_of_hoist hhoist hs hs' rfl (congrArg some hname.symm)

end HostScript.Program
