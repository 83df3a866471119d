import Mathlib
import HostScript.Proofs.Machine.Chain
import HostScript.Proofs.Machine.Primitive

/-!
# Scoped parts of a run end fine

What a scoped part of a run leaves when it is started in a chain that mirrors the layers around it: the chain still mirrors them,
and control leaves only what is around it. If the part fails, it is not with a fault that the resolver rules out. This is `sound`;
it goes by induction on the fuel, with one case for each form of expression and statement.
-/

namespace HostScript.Machine

open Program
open Script (Ident Stmt Expr Module)

/-- The problems that cannot arise in a resolved program. -/
def Problem.RuledOut : Problem → Prop
  | .notDefined _ | .isFunction _ | .notFunction _ | .functionNotDefined _ | .scopeReleased | .assignsFunction _ | .arity _ _ _ => True
  | _ => False

/-- The problems with values, whatever the names in front of them stand for. -/
def Problem.OfValues : Problem → Prop
  | .access _ | .arithmetic _ | .builtin _ | .operands _ _ _ | .incomparable _ _ | .negated _ | .exportsType _ => True
  | _ => False

/-- A problem of values is not one of those that are ruled out. -/
theorem Problem.OfValues.not_ruledOut {problem : Problem} (h : problem.OfValues) : ¬problem.RuledOut := by
  cases problem <;> first | exact id | cases h

/-- The halts that cannot occur in a run of a resolved program. -/
def Halt.RuledOut : Halt → Prop
  | .fault (.problem _ problem) => problem.RuledOut
  | .fault .strayFlow => True
  | _ => False

/-- Control leaves only what is around a site. -/
def Flow.Allowed (site : Site) : Flow → Prop
  | .normal => True
  | .break_ | .continue_ => site.inLoop = true
  | .return_ _ => site.inFunction = true

namespace SoundAux

variable {m : Module} {host : Host}

/-- How a part of a run ends that is run at a site: the chain mirrors the layers and the result is as stated, or it fails with
something that is not ruled out. -/
def Fine (m : Module) (site : Site) {α : Type} (Q : α → Prop) : EStateM.Result Halt State α → Prop
  | .ok a after => Chain m site.layers after.scopes ∧ Q a
  | .error halt _ => ¬halt.RuledOut

variable {site : Site} {α β : Type} {Q : α → Prop} {R : β → Prop}

/-- Two parts one after the other are fine if the first is, and the second is on the chain that the first leaves. -/
theorem Fine.bind {r : Run α} {f : α → Run β} {s : State} (hr : Fine m site Q (r s))
    (hf : ∀ a after, r s = .ok a after → Chain m site.layers after.scopes → Q a → Fine m site R (f a after)) :
    Fine m site R ((r >>= f) s) := by
  cases h : r s with
  | ok a after =>
    rw [h] at hr
    rw [bind_ok h]
    exact hf a after h hr.1 hr.2
  | error halt after =>
    rw [h] at hr
    rw [bind_error h]
    exact hr

/-- A value is fine. -/
theorem Fine.pure {a : α} {s : State} (hc : Chain m site.layers s.scopes) (ha : Q a) : Fine m site Q ((pure a : Run α) s) :=
  ⟨hc, ha⟩

/-- What a part leads to, where its outcome is known. -/
theorem Fine.of_ok {r : EStateM.Result Halt State α} {a : α} {after : State} (h : Fine m site Q r) (hr : r = .ok a after) :
    Chain m site.layers after.scopes ∧ Q a := by
  subst hr
  exact h

/-- An operation on values is fine if none of its problems is ruled out. -/
theorem Fine.locate {ε : Type} {span : Span} {wrap : ε → Problem} {r : Except ε α} {s : State}
    (hc : Chain m site.layers s.scopes) (hr : ∀ e, r = .error e → ¬(wrap e).RuledOut) :
    Fine m site (fun _ => True) (Machine.locate span wrap r s) := by
  cases r with
  | ok a => exact ⟨hc, trivial⟩
  | error e => exact hr e rfl

/-- A step is fine. -/
theorem Fine.step {s : State} (hc : Chain m site.layers s.scopes) : Fine m site (fun _ => True) (Machine.step host s) := by
  rw [step_apply]
  rcases s.budget.step (host.clock (s.budget.steps + 1)) with ⟨budget, _ | fault⟩
  · exact ⟨hc, trivial⟩
  · exact id

/-- A question to the host is fine. -/
theorem Fine.ask {span : Span} {prompt : String} {s : State} (hc : Chain m site.layers s.scopes) :
    Fine m site (fun _ => True) (Machine.ask host span prompt s) := by
  rw [ask_apply]
  cases s.answers with
  | nil => exact id
  | cons answer rest => exact ⟨hc, trivial⟩

/-- An assignment to the exports fails because of the values only. -/
theorem assignedExports_problem {path : List Value} {v exports after : Value} {problem : Problem}
    (h : assignedExports path v exports = (after, some problem)) : problem.OfValues := by
  unfold assignedExports at h
  split at h
  · nomatch (Prod.mk.inj h).2
  · obtain rfl := Option.some.inj (Prod.mk.inj h).2
    trivial
  · rcases hpath : Value.modifyPath (fun _ => v) path exports with ⟨updated, _ | fault⟩
    · rw [hpath] at h
      nomatch (Prod.mk.inj h).2
    · rw [hpath] at h
      obtain rfl := Option.some.inj (Prod.mk.inj h).2
      trivial

/-- An assignment to the exports is fine. -/
theorem Fine.assignExports {span : Span} {path : List Value} {v : Value} {s : State} (hc : Chain m site.layers s.scopes) :
    Fine m site (fun _ => True) (Machine.assignExports span path v s) := by
  rw [assignExports_apply]
  rcases h : assignedExports path v s.exports with ⟨exports, _ | problem⟩
  · exact ⟨hc, trivial⟩
  · exact (assignedExports_problem h).not_ruledOut

/-! ### Operators -/

/-- A unary operator fails because of its operand only. -/
theorem unary_problem {op : Script.UnaryOp} {v : Value} {problem : Problem} (h : unary op v = .error problem) :
    problem.OfValues := by
  unfold unary at h
  split at h
  · nomatch h
  · nomatch h
  · obtain rfl := Except.error.inj h
    trivial

/-- An arithmetic operator fails because of its operands only. -/
theorem arith_problem {op : Script.ArithOp} {left right : Value} {problem : Problem} (h : arith op left right = .error problem) :
    problem.OfValues := by
  unfold arith at h
  split at h
  · rename_i a b
    cases hn : arithNumbers op a b with
    | ok n =>
      rw [hn] at h
      nomatch h
    | error fault =>
      rw [hn] at h
      obtain rfl := Except.error.inj h
      trivial
  · nomatch h
  · nomatch h
  · nomatch h
  · obtain rfl := Except.error.inj h
    trivial

/-- A comparison fails because of its operands only. -/
theorem compare_problem {op : Script.CompareOp} {left right : Value} {problem : Problem}
    (h : compare op left right = .error problem) : problem.OfValues := by
  unfold compare at h
  split at h
  all_goals cases h
  trivial

/-! ### Names that have been looked up -/

/-- A walk for a variable or a parameter finds a slot that is no function. -/
theorem findSlot_value {name : String} {scopes : List Scope} (hc : Chain m site.layers scopes)
    (hbinds : (site.context m).BindsValue name) :
    findSlot? name scopes = some .uninitialized ∨ ∃ v, findSlot? name scopes = some (.value v) := by
  unfold Context.BindsValue at hbinds
  rw [lookup_blocks] at hbinds
  rcases hbinds with hbinds | hbinds
  all_goals
    obtain ⟨inner, layer, outer, hselects⟩ := selects_of_lookup hbinds
    obtain ⟨hidden, scope, rest, slot, hlands⟩ := hc.lands hselects
    rw [hlands.found]
    cases hlands.kind
  · exact Or.inl rfl
  · exact Or.inr ⟨_, rfl⟩
  · exact Or.inr ⟨_, rfl⟩

/-- A walk for a function finds one that takes as many parameters and is scoped where it is found. -/
theorem findSlot_function {name : String} {arity : Nat} {scopes : List Scope} {inner outer : List Layer} {layer : Layer}
    (hc : Chain m site.layers scopes) (hs : Selects site.layers name (.function arity) inner layer outer) :
    ∃ (f : Function) (home : Site), findSlot? name scopes = some (.function f) ∧ f.params.length = arity ∧
      f.name = name ∧ home.layers = layer :: outer ∧ FunctionScoped m home f := by
  obtain ⟨hidden, scope, rest, slot, hlands⟩ := hc.lands hs
  rw [hlands.found]
  cases hlands.kind with
  | function hhome h => exact ⟨_, _, rfl, rfl, rfl, hhome, h⟩

/-- A variable that the resolver has bound can be read. -/
theorem Fine.readVariable {span : Span} {name : String} {s : State} (hc : Chain m site.layers s.scopes)
    (hbinds : (site.context m).BindsValue name) : Fine m site (fun _ => True) (Machine.readVariable span name s) := by
  rw [readVariable_apply]
  rcases findSlot_value hc hbinds with h | ⟨v, h⟩
  · rw [h]
    exact id
  · rw [h]
    exact ⟨hc, trivial⟩

/-- A variable that the resolver has bound can be assigned to. -/
theorem Fine.assignVariable {span : Span} {name : String} {path : List Value} {v : Value} {s : State}
    (hc : Chain m site.layers s.scopes) (hbinds : (site.context m).BindsValue name) :
    Fine m site (fun _ => True) (Machine.assignVariable span name path v s) := by
  rw [assignVariable_apply]
  rcases findSlot_value hc hbinds with h | ⟨current, h⟩
  · rw [h]
    exact id
  · rw [h]
    dsimp only
    split
    · exact ⟨hc.replace h, trivial⟩
    · exact id

/-- What a `let` leaves in the innermost scope. -/
theorem Fine.bindName {name : String} {v : Value} {s : State} {layer : Layer} {rest : List Layer}
    (hc : Chain m site.layers s.scopes) (hlayers : site.layers = layer :: rest)
    (hname : layer.names.lookup name = some .variable) :
    Fine m site (fun _ => True) (Machine.bind name (.value v) s) := by
  rw [bindName_apply]
  rw [hlayers] at hc
  obtain ⟨scope, scopes, hscopes, hbound⟩ := hc.bind hname
  rw [hscopes]
  refine ⟨?_, trivial⟩
  rw [hlayers]
  exact hbound

/-- A block is run in an instance of its layer, which is dropped afterwards. -/
theorem Fine.inScope {inner : Site} {layer : Layer} {scope : Scope} {body : Run α} {s : State}
    (hlayers : inner.layers = layer :: site.layers)
    (h : Fine m inner Q (body { s with scopes := scope :: s.scopes })) : Fine m site Q (Machine.inScope scope body s) := by
  rw [inScope_apply]
  cases hb : body { s with scopes := scope :: s.scopes } with
  | error halt after =>
    rw [hb] at h
    exact h
  | ok a after =>
    rw [hb] at h
    obtain ⟨hchain, ha⟩ := h
    refine ⟨?_, ha⟩
    rw [hlayers] at hchain
    rcases hscopes : after.scopes with _ | ⟨first, rest⟩
    · rw [hscopes] at hchain
      nomatch hchain
    · rw [hscopes] at hchain
      unfold State.dropScope
      rw [hscopes]
      exact hchain.2

/-- The chain at the start of a call. -/
theorem Chain.called {name : String} {s : State} {binding : Binding} {inner outer : List Layer} {layer frameLayer : Layer}
    {frame : Scope} (hc : Chain m site.layers s.scopes) (hs : Selects site.layers name binding inner layer outer)
    (hframe : Instance m frameLayer (layer :: outer) frame) :
    Chain m (frameLayer :: layer :: outer) (s.called name frame).scopes := by
  obtain ⟨hidden, scope, rest, slot, hlands⟩ := hc.lands hs
  have hdepth : scopeDepth name s.scopes = inner.length := hlands.depth.trans hlands.length
  refine ⟨hframe, ?_⟩
  rw [hdepth]
  have hlayers := hs.split
  rw [hlayers] at hc
  exact hc.split.1

/-- A call runs the body of its function in a frame on top of the scope that the function is found in, and leaves the chain. -/
theorem Fine.inCall {name : String} {frame : Scope} {body : Run α} {s : State} {binding : Binding} {inner outer : List Layer}
    {layer frameLayer : Layer} {inside : Site} (hc : Chain m site.layers s.scopes)
    (hs : Selects site.layers name binding inner layer outer) (hinside : inside.layers = frameLayer :: layer :: outer)
    (h : Fine m inside Q (body (s.called name frame))) : Fine m site Q (Machine.inCall name frame body s) := by
  obtain ⟨hidden, scope, rest, slot, hlands⟩ := hc.lands hs
  have hdepth : scopeDepth name s.scopes = inner.length := hlands.depth.trans hlands.length
  rw [inCall_apply]
  split
  · exact id
  · cases hb : body (s.called name frame) with
    | error halt after =>
      rw [hb] at h
      exact h
    | ok a after =>
      rw [hb] at h
      obtain ⟨hchain, ha⟩ := h
      refine ⟨?_, ha⟩
      rw [hinside] at hchain
      have hlayers := hs.split
      rw [hlayers] at hc ⊢
      unfold State.returned
      rw [hdepth]
      rcases hscopes : after.scopes with _ | ⟨first, rest⟩
      · rw [hscopes] at hchain
        nomatch hchain
      · rw [hscopes] at hchain
        exact hc.split.2 rest hchain.2

/-! ### What a part of a run leaves -/

/-- Parts of a run with the given fuel that are scoped at a site end fine when they are started in a chain that mirrors its
layers. -/
structure Sound (m : Module) (host : Host) (fuel : Nat) : Prop where
  eval : ∀ {site : Site} {e : Expression} {s : State}, ExprScoped m site e → Chain m site.layers s.scopes →
    Fine m site (fun _ => True) (eval host fuel e s)
  evalAll : ∀ {site : Site} {es : List Expression} {s : State}, (∀ e ∈ es, ExprScoped m site e) →
    Chain m site.layers s.scopes → Fine m site (fun vs => vs.length = es.length) (evalAll host fuel es s)
  evalFields : ∀ {site : Site} {table : Table Value} {fields : List (Expression × Expression)} {s : State},
    (∀ field ∈ fields, ExprScoped m site field.1 ∧ ExprScoped m site field.2) → Chain m site.layers s.scopes →
    Fine m site (fun _ => True) (evalFields host fuel table fields s)
  evalPath : ∀ {site : Site} {path : List PathSegment} {s : State}, PathScoped m site path →
    Chain m site.layers s.scopes → Fine m site (fun _ => True) (evalPath host fuel path s)
  execBlock : ∀ {site : Site} {block : Block} {s : State}, OtherwiseScoped m site block → Chain m site.layers s.scopes →
    Fine m site (Flow.Allowed site) (execBlock host fuel block s)
  execAll : ∀ {site : Site} {stmts : List Statement} {s : State}, (∀ st ∈ stmts, StmtScoped m site st) →
    Chain m site.layers s.scopes → Fine m site (Flow.Allowed site) (execAll host fuel stmts s)
  exec : ∀ {site : Site} {st : Statement} {s : State}, StmtScoped m site st → Chain m site.layers s.scopes →
    Fine m site (Flow.Allowed site) (exec host fuel st s)
  loop : ∀ {site : Site} {cond : Expression} {stmts : List Stmt} {names : Names} {body : Block} {s : State},
    ExprScoped m site cond → BodyScoped m site.loop [] stmts names body → Chain m site.layers s.scopes →
    Fine m site (Flow.Allowed site) (loop host fuel cond body s)

/-- Without fuel nothing is done. -/
theorem sound_zero : Sound m host 0 where
  eval _ _ := by unfold Machine.eval; exact id
  evalAll _ _ := id
  evalFields _ _ := id
  evalPath _ _ := id
  execBlock _ _ := id
  execAll _ _ := id
  exec _ _ := by unfold Machine.exec; exact id
  loop _ _ _ := id

section Step

variable {fuel : Nat} (ih : Sound m host fuel)
include ih

/-- Evaluating a scoped expression. -/
theorem sound_eval {e : Expression} {s : State} (h : ExprScoped m site e) (hc : Chain m site.layers s.scopes) :
    Fine m site (fun _ => True) (eval host (fuel + 1) e s) := by
  cases h with
  | const v => rw [Machine.eval]; exact .pure hc trivial
  | local_ ho hbinds => rw [Machine.eval]; exact .readVariable hc hbinds
  | array hitems =>
    rw [Machine.eval]
    exact .bind (ih.evalAll hitems hc) fun vs after _ hc _ => .pure hc trivial
  | object hkey hvalue =>
    rw [Machine.eval]
    exact .bind (ih.evalFields (fun field hf => ⟨hkey field hf, hvalue field hf⟩) hc) fun vs after _ hc _ => .pure hc trivial
  | unary hoperand =>
    rw [Machine.eval]
    exact .bind (ih.eval hoperand hc) fun v after _ hc _ => .locate hc fun _ he => (unary_problem he).not_ruledOut
  | arith hl hr =>
    rw [Machine.eval]
    exact .bind (ih.eval hl hc) fun l after _ hc _ => .bind (ih.eval hr hc) fun r after _ hc _ =>
      .locate hc fun _ he => (arith_problem he).not_ruledOut
  | compare hl hr =>
    rw [Machine.eval]
    exact .bind (ih.eval hl hc) fun l after _ hc _ => .bind (ih.eval hr hc) fun r after _ hc _ =>
      .locate hc fun _ he => (compare_problem he).not_ruledOut
  | @logic op left right hl hr =>
    rw [Machine.eval]
    refine .bind (ih.eval hl hc) fun l after _ hc _ => ?_
    have hright : Fine m site (fun _ => True) ((do return .bool (← eval host fuel right).isTruthy : Run Value) after) :=
      .bind (ih.eval hr hc) fun r after _ hc _ => .pure hc trivial
    rcases op with _ | _ <;> cases l.isTruthy
    · exact .pure hc trivial
    · exact hright
    · exact hright
    · exact .pure hc trivial
  | member hbase =>
    rw [Machine.eval]
    exact .bind (ih.eval hbase hc) fun v after _ hc _ => .locate hc fun _ _ => id
  | index hb hk =>
    rw [Machine.eval]
    exact .bind (ih.eval hb hc) fun v after _ hc _ => .bind (ih.eval hk hc) fun k after _ hc _ =>
      .locate hc fun _ _ => id
  | builtin harity hargs =>
    rw [Machine.eval]
    exact .bind (ih.evalAll hargs hc) fun vs after _ hc _ => .locate hc fun _ _ => id
  | output hvalue =>
    rw [Machine.eval]
    exact .bind (ih.eval hvalue hc) fun v after _ hc _ => ⟨hc, trivial⟩
  | input hprompt =>
    rw [Machine.eval]
    exact .bind (ih.eval hprompt hc) fun p after _ hc _ => .bind (.ask hc) fun line after _ hc _ => .pure hc trivial
  | exports => rw [Machine.eval]; exact ⟨hc, trivial⟩
  | @call span nameSpan name args from_ ho hbinds hargs =>
    rw [Machine.eval]
    have hlookup := hbinds
    rw [lookup_blocks] at hlookup
    obtain ⟨inner, layer, outer, hselects⟩ := selects_of_lookup hlookup
    obtain ⟨f, home, hfound, harity, _, hhome, hscoped⟩ := findSlot_function hc hselects
    have hread : readFunction span name s = .ok f s := by rw [readFunction_apply, hfound]
    rw [bind_ok hread]
    dsimp only
    rw [if_neg (by simp [harity])]
    refine .bind (ih.evalAll hargs hc) fun vs after _ hc hlength => ?_
    -- the function is looked up again where the arguments have been evaluated, and its layer is the same
    obtain ⟨params, stmts, names, hbody, hframe⟩ := ChainAux.instance_callFrame hscoped (hlength.trans harity.symm)
    rw [hhome] at hframe
    have hchain := Chain.called hc hselects hframe
    have hinside : (home.function.enter params stmts names).layers = .block params stmts names :: layer :: outer :=
      congrArg _ hhome
    have hcall : Fine m site (Flow.Allowed (home.function.enter params stmts names))
        (inCall name (callFrame f vs) (execAll host fuel f.body.stmts) after) := by
      refine .inCall hc hselects hinside (ih.execAll ?_ (hinside ▸ hchain))
      revert hbody
      cases f.body with
      | mk locals functions body =>
        rintro ⟨hd, hm, hf, hs⟩
        exact hs
    refine .bind hcall fun flow after _ hc _ => ?_
    split
    · exact .pure hc trivial
    · exact .pure hc trivial

/-- Executing a scoped statement. -/
theorem sound_exec {st : Statement} {s : State} (h : StmtScoped m site st) (hc : Chain m site.layers s.scopes) :
    Fine m site (Flow.Allowed site) (exec host (fuel + 1) st s) := by
  unfold Machine.exec
  refine .bind (.step hc) fun _ after _ hc _ => ?_
  cases h with
  | let_ ho hv =>
    obtain ⟨layer, rest, hlayers, hname⟩ := ho.let_layer
    exact .bind (ih.eval hv hc) fun v after _ hc _ => .bind (.bindName hc hlayers hname) fun _ after _ hc _ => .pure hc trivial
  | assign ht hv =>
    refine .bind (ih.eval hv hc) fun v after _ hc _ => ?_
    cases ht with
    | local_ ho hbinds hpath =>
      exact .bind (ih.evalPath hpath hc) fun keys after _ hc _ => .bind (.assignVariable hc hbinds) fun _ after _ hc _ =>
        .pure hc trivial
    | exports hpath =>
      exact .bind (ih.evalPath hpath hc) fun keys after _ hc _ => .bind (.assignExports hc) fun _ after _ hc _ =>
        .pure hc trivial
  | expr he => exact .bind (ih.eval he hc) fun v after _ hc _ => .pure hc trivial
  | @if_ _ cond stmts names body otherwise hcond hb ho =>
    refine .bind (ih.eval hcond hc) fun v after _ hc _ => ?_
    split
    · exact ih.execBlock (.block hb) hc
    · cases otherwise with
      | none => exact .pure hc trivial
      | some block => exact ih.execBlock (ho block rfl) hc
  | while_ hcond hb => exact ih.loop hcond hb hc
  | return_ hf hv =>
    rename_i value
    cases value with
    | none => exact .pure hc hf
    | some e => exact .bind (ih.eval (hv e rfl) hc) fun v after _ hc _ => .pure hc hf
  | break_ hl => exact .pure hc hl
  | continue_ hl => exact .pure hc hl
  | block hb => exact ih.execBlock (.block hb) hc

/-- Executing a scoped block. -/
theorem sound_execBlock {block : Block} {s : State} (h : OtherwiseScoped m site block) (hc : Chain m site.layers s.scopes) :
    Fine m site (Flow.Allowed site) (execBlock host (fuel + 1) block s) := by
  unfold Machine.execBlock
  cases h with
  | @block _ stmts names _ hb =>
    have hinstance := ChainAux.instance_block hb
    cases hb with
    | @mk _ _ _ _ locals functions body hd hm hf hs =>
      have hchain : Chain m (site.enter [] stmts names).layers (bindBlock (.mk locals functions body) [] :: s.scopes) :=
        ⟨hinstance, hc⟩
      have hbody : Fine m (site.enter [] stmts names) (Flow.Allowed site) (execAll host fuel body
          { s with scopes := bindBlock (.mk locals functions body) [] :: s.scopes }) := ih.execAll hs hchain
      exact .inScope rfl hbody
  | @elseIf _ cond body otherwise hif =>
    have hinner : ∀ st ∈ [Statement.if_ cond body otherwise], StmtScoped m site.elseIf st := by
      intro st hst
      obtain rfl := List.mem_singleton.mp hst
      exact hif
    have hchain : Chain m site.elseIf.layers (bindBlock (.mk [] [] [.if_ cond body otherwise]) [] :: s.scopes) :=
      ⟨ChainAux.instance_elseIf _ _, hc⟩
    have hbody : Fine m site.elseIf (Flow.Allowed site) (execAll host fuel [.if_ cond body otherwise]
        { s with scopes := bindBlock (.mk [] [] [.if_ cond body otherwise]) [] :: s.scopes }) := ih.execAll hinner hchain
    exact .inScope rfl hbody

/-- A turn of a scoped loop. -/
theorem sound_loop {cond : Expression} {stmts : List Stmt} {names : Names} {body : Block} {s : State}
    (hcond : ExprScoped m site cond) (hb : BodyScoped m site.loop [] stmts names body) (hc : Chain m site.layers s.scopes) :
    Fine m site (Flow.Allowed site) (loop host (fuel + 1) cond body s) := by
  rw [Machine.loop]
  refine .bind (ih.eval hcond hc) fun v after _ hc _ => ?_
  split
  · exact .pure hc trivial
  · have hbody : Fine m site (Flow.Allowed site.loop) (execBlock host fuel body after) := ih.execBlock (.block hb) hc
    refine .bind hbody fun flow after _ hc hflow => ?_
    cases flow with
    | break_ => exact .pure hc trivial
    | return_ v => exact .pure hc hflow
    | normal => exact .bind (.step hc) fun _ after _ hc _ => ih.loop hcond hb hc
    | continue_ => exact .bind (.step hc) fun _ after _ hc _ => ih.loop hcond hb hc

/-- A part with one more step of fuel. -/
theorem sound_succ : Sound m host (fuel + 1) := by
  refine ⟨sound_eval ih, ?_, ?_, ?_, sound_execBlock ih, ?_, sound_exec ih, sound_loop ih⟩
  · rintro site (_ | ⟨e, es⟩) s h hc
    · exact .pure hc rfl
    · refine .bind (ih.eval (h e List.mem_cons_self) hc) fun v after _ hc _ => ?_
      refine .bind (ih.evalAll (fun e he => h e (List.mem_cons_of_mem _ he)) hc) fun vs after _ hc hlength => .pure hc ?_
      rw [List.length_cons, hlength, List.length_cons]
  · rintro site table (_ | ⟨⟨key, value⟩, fields⟩) s h hc
    · exact .pure hc trivial
    · have hhere := h _ List.mem_cons_self
      refine .bind (ih.eval hhere.1 hc) fun k after _ hc _ => .bind (ih.eval hhere.2 hc) fun v after _ hc _ => ?_
      exact ih.evalFields (fun field hf => h field (List.mem_cons_of_mem _ hf)) hc
  · rintro site (_ | ⟨_ | key, path⟩) s h hc
    · exact .pure hc trivial
    · refine .bind (ih.evalPath (fun k hk => h k (List.mem_cons_of_mem _ hk)) hc) fun vs after _ hc _ => .pure hc trivial
    · refine .bind (ih.eval (h key List.mem_cons_self) hc) fun v after _ hc _ => ?_
      exact .bind (ih.evalPath (fun k hk => h k (List.mem_cons_of_mem _ hk)) hc) fun vs after _ hc _ => .pure hc trivial
  · rintro site (_ | ⟨st, stmts⟩) s h hc
    · exact .pure hc trivial
    · refine .bind (ih.exec (h st List.mem_cons_self) hc) fun flow after _ hc hflow => ?_
      cases flow with
      | normal => exact ih.execAll (fun st hst => h st (List.mem_cons_of_mem _ hst)) hc
      | break_ => exact .pure hc hflow
      | continue_ => exact .pure hc hflow
      | return_ v => exact .pure hc hflow

end Step

/-- Every part of a run that is scoped ends fine, whatever its fuel. -/
theorem sound (fuel : Nat) : Sound m host fuel := by
  induction fuel with
  | zero => exact sound_zero
  | succ fuel ih => exact sound_succ ih

end SoundAux

end HostScript.Machine
