import Mathlib
import HostScript.Proofs.Machine.Linked
import HostScript.Proofs.Machine.Point
import HostScript.Proofs.Machine.Soundness

/-!
# Resolved names are found

At every point of a run of a resolved program, a walk along the chain of scopes for a name stops in the instance of the block that
the resolver has selected for the occurrence of the name, at a slot of the kind that the resolver has seen. So a run does not fail
with the faults that the resolver rules out (`resolved_names_found`).

Every part that a scoped part starts is scoped where it starts, because the parts before it end fine. So every point of the run is
scoped, and the walks from it are those that the resolver has foreseen. A function is found in a scope of the chain, so the scope
that declares it is there whenever the function is called: `Linked.runFor_eq` says so of scopes that are released when nothing has hold
of them.
-/

namespace HostScript.Machine

open Program
open Script (Ident Stmt Expr Module)

namespace ScopingAux

open SoundAux

variable {m : Module} {host : Host} {site : Site} {α β : Type} {Q : α → Prop}

/-! ## What a part of a run starts -/

/-- A part of a run that is scoped at a site. -/
inductive TaskScoped (m : Module) (site : Site) : Task → Prop
  | eval {e : Expression} (h : ExprScoped m site e) : TaskScoped m site (.eval e)
  | evalAll {es : List Expression} (h : ∀ e ∈ es, ExprScoped m site e) : TaskScoped m site (.evalAll es)
  | evalFields {table : Table Value} {fields : List (Expression × Expression)}
    (h : ∀ field ∈ fields, ExprScoped m site field.1 ∧ ExprScoped m site field.2) : TaskScoped m site (.evalFields table fields)
  | evalPath {path : List PathSegment} (h : PathScoped m site path) : TaskScoped m site (.evalPath path)
  | execBlock {block : Block} (h : OtherwiseScoped m site block) : TaskScoped m site (.execBlock block)
  | execAll {stmts : List Statement} (h : ∀ st ∈ stmts, StmtScoped m site st) : TaskScoped m site (.execAll stmts)
  | exec {st : Statement} (h : StmtScoped m site st) : TaskScoped m site (.exec st)
  | loop {cond : Expression} {stmts : List Stmt} {names : Names} {body : Block} (hc : ExprScoped m site cond)
    (hb : BodyScoped m site.loop [] stmts names body) : TaskScoped m site (.loop cond body)
  | assign {span : Span} {name : String} {keys : List Value} {v : Value} (h : Occurs m site (.target (.var span name)))
    (hbinds : (site.context m).BindsValue name) : TaskScoped m site (.assign span name keys v)
  | enter {span nameSpan : Span} {name : String} {from_ : List Expr} {f : Function} {args : List Value} {home : Site}
    {inner outer : List Layer} {layer : Layer} (h : Occurs m site (.expr (.call span (.var nameSpan name) from_)))
    (hs : Selects site.layers name (.function args.length) inner layer outer) (hlength : args.length = f.params.length)
    (hname : f.name = name) (hhome : home.layers = layer :: outer) (hf : FunctionScoped m home f) :
    TaskScoped m site (.enter name f args)
  | apply {function : Builtin} {args : List Value} (h : ∀ arity, function.arity? = some arity → args.length = arity) :
    TaskScoped m site (.apply function args)

/-- A part about to be run that is scoped at a site whose layers the chain mirrors. -/
def PointScoped (m : Module) (p : Point) : Prop := ∃ site, TaskScoped m site p.task ∧ Chain m site.layers p.state.scopes

theorem mem_andThen {r : EStateM.Result Halt State α} {f : α → State → List β} {b : β} (h : b ∈ andThen r f) :
    ∃ a after, r = .ok a after ∧ b ∈ f a after := by
  cases r with
  | ok a after => exact ⟨a, after, rfl, h⟩
  | error halt after => nomatch h

variable {p : Point} {fuel : Nat} {s : State}

/-- The parts of a scoped expression. -/
theorem evalStarts_scoped {e : Expression} (he : ExprScoped m site e) (hc : Chain m site.layers s.scopes)
    (h : p ∈ Point.evalStarts host fuel e s) : PointScoped m p := by
  have ih : Sound m host fuel := sound fuel
  have both : ∀ {left right : Expression}, ExprScoped m site left → ExprScoped m site right →
      p ∈ (⟨fuel, .eval left, s⟩ :: andThen (Machine.eval host fuel left s) fun _ after => [⟨fuel, .eval right, after⟩] :
        List Point) → PointScoped m p := by
    intro left right hl hr hmem
    rcases List.mem_cons.mp hmem with rfl | hmem
    · exact ⟨site, .eval hl, hc⟩
    · obtain ⟨v, after, hv, hmem⟩ := mem_andThen hmem
      obtain rfl := List.mem_singleton.mp hmem
      exact ⟨site, .eval hr, ((ih.eval hl hc).of_ok hv).1⟩
  cases he with
  | const v => nomatch h
  | local_ ho hbinds => nomatch h
  | exports => nomatch h
  | array hitems =>
    obtain rfl := List.mem_singleton.mp h
    exact ⟨site, .evalAll hitems, hc⟩
  | object hkey hvalue =>
    obtain rfl := List.mem_singleton.mp h
    exact ⟨site, .evalFields fun field hf => ⟨hkey field hf, hvalue field hf⟩, hc⟩
  | unary hoperand =>
    obtain rfl := List.mem_singleton.mp h
    exact ⟨site, .eval hoperand, hc⟩
  | arith hl hr => exact both hl hr h
  | compare hl hr => exact both hl hr h
  | @logic op left right hl hr =>
    refine both hl hr ?_
    rcases List.mem_cons.mp h with rfl | h
    · exact List.mem_cons_self
    · refine List.mem_cons_of_mem _ ?_
      obtain ⟨v, after, hv, h⟩ := mem_andThen h
      rw [hv]
      rcases op with _ | _ <;> cases hv : v.isTruthy <;> rw [hv] at h
      · nomatch h
      · exact h
      · exact h
      · nomatch h
  | member hbase =>
    obtain rfl := List.mem_singleton.mp h
    exact ⟨site, .eval hbase, hc⟩
  | index hb hk => exact both hb hk h
  | builtin harity hargs =>
    rcases List.mem_cons.mp h with rfl | h
    · exact ⟨site, .evalAll hargs, hc⟩
    · obtain ⟨vs, after, hvs, h⟩ := mem_andThen h
      obtain rfl := List.mem_singleton.mp h
      obtain ⟨hchain, hlength⟩ := (ih.evalAll hargs hc).of_ok hvs
      exact ⟨site, .apply fun arity ha => hlength.trans (harity arity ha), hchain⟩
  | output hvalue =>
    obtain rfl := List.mem_singleton.mp h
    exact ⟨site, .eval hvalue, hc⟩
  | input hprompt =>
    obtain rfl := List.mem_singleton.mp h
    exact ⟨site, .eval hprompt, hc⟩
  | @call span nameSpan name args from_ ho hbinds hargs =>
    have hlookup := hbinds
    rw [lookup_blocks] at hlookup
    obtain ⟨inner, layer, outer, hselects⟩ := selects_of_lookup hlookup
    obtain ⟨f, home, hfound, harity, hname, hhome, hscoped⟩ := findSlot_function hc hselects
    obtain ⟨g, after, hg, h⟩ := mem_andThen h
    rw [readFunction_apply, hfound] at hg
    cases hg
    rw [if_neg (by simp [harity])] at h
    rcases List.mem_cons.mp h with rfl | h
    · exact ⟨site, .evalAll hargs, hc⟩
    · obtain ⟨vs, after, hvs, h⟩ := mem_andThen h
      obtain rfl := List.mem_singleton.mp h
      obtain ⟨hchain, hlength⟩ := (ih.evalAll hargs hc).of_ok hvs
      rw [← hlength] at hselects
      exact ⟨site, .enter ho hselects (hlength.trans harity.symm) hname hhome hscoped, hchain⟩

/-- The parts of a scoped statement. -/
theorem execStarts_scoped {st : Statement} (hst : StmtScoped m site st) (hc : Chain m site.layers s.scopes)
    (h : p ∈ Point.execStarts host fuel st s) : PointScoped m p := by
  have ih : Sound m host fuel := sound fuel
  cases hst with
  | let_ ho hv =>
    obtain rfl := List.mem_singleton.mp h
    exact ⟨site, .eval hv, hc⟩
  | assign ht hv =>
    cases ht with
    | local_ ho hbinds hpath =>
      rcases List.mem_cons.mp h with rfl | h
      · exact ⟨site, .eval hv, hc⟩
      · obtain ⟨v, after, hrun, h⟩ := mem_andThen h
        have hc := ((ih.eval hv hc).of_ok hrun).1
        rcases List.mem_cons.mp h with rfl | h
        · exact ⟨site, .evalPath hpath, hc⟩
        · obtain ⟨keys, after, hrun, h⟩ := mem_andThen h
          obtain rfl := List.mem_singleton.mp h
          exact ⟨site, .assign ho hbinds, ((ih.evalPath hpath hc).of_ok hrun).1⟩
    | exports hpath =>
      rcases List.mem_cons.mp h with rfl | h
      · exact ⟨site, .eval hv, hc⟩
      · obtain ⟨v, after, hrun, h⟩ := mem_andThen h
        obtain rfl := List.mem_singleton.mp h
        exact ⟨site, .evalPath hpath, ((ih.eval hv hc).of_ok hrun).1⟩
  | expr he =>
    obtain rfl := List.mem_singleton.mp h
    exact ⟨site, .eval he, hc⟩
  | @if_ _ cond stmts names body otherwise hcond hb ho =>
    rcases List.mem_cons.mp h with rfl | h
    · exact ⟨site, .eval hcond, hc⟩
    · obtain ⟨v, after, hrun, h⟩ := mem_andThen h
      have hc := ((ih.eval hcond hc).of_ok hrun).1
      split at h
      · obtain rfl := List.mem_singleton.mp h
        exact ⟨site, .execBlock (.block hb), hc⟩
      · obtain ⟨block, hblock, rfl⟩ := List.mem_map.mp h
        exact ⟨site, .execBlock (ho block (Option.mem_toList.mp hblock)), hc⟩
  | while_ hcond hb =>
    obtain rfl := List.mem_singleton.mp h
    exact ⟨site, .loop hcond hb, hc⟩
  | return_ hf hv =>
    obtain ⟨e, he, rfl⟩ := List.mem_map.mp h
    exact ⟨site, .eval (hv e (Option.mem_toList.mp he)), hc⟩
  | break_ hl => nomatch h
  | continue_ hl => nomatch h
  | block hb =>
    obtain rfl := List.mem_singleton.mp h
    exact ⟨site, .execBlock (.block hb), hc⟩

/-- The statements of a scoped block. -/
theorem execBlock_scoped {block : Block} (hb : OtherwiseScoped m site block) (hc : Chain m site.layers s.scopes) :
    PointScoped m ⟨fuel, .execAll block.stmts, { s with scopes := bindBlock block [] :: s.scopes }⟩ := by
  cases hb with
  | @block _ stmts names _ hb =>
    have hinstance := ChainAux.instance_block hb
    cases hb with
    | mk hd hm hf hs => exact ⟨site.enter [] stmts names, .execAll hs, hinstance, hc⟩
  | elseIf hif =>
    refine ⟨site.elseIf, .execAll fun st hst => ?_, ChainAux.instance_elseIf _ _, hc⟩
    obtain rfl := List.mem_singleton.mp hst
    exact hif

/-- The parts of a turn of a scoped loop. -/
theorem loopStarts_scoped {cond : Expression} {stmts : List Stmt} {names : Names} {body : Block}
    (hcond : ExprScoped m site cond) (hb : BodyScoped m site.loop [] stmts names body) (hc : Chain m site.layers s.scopes)
    (h : p ∈ Point.loopStarts host fuel cond body s) : PointScoped m p := by
  have ih : Sound m host fuel := sound fuel
  rcases List.mem_cons.mp h with rfl | h
  · exact ⟨site, .eval hcond, hc⟩
  · obtain ⟨v, after, hrun, h⟩ := mem_andThen h
    have hc := ((ih.eval hcond hc).of_ok hrun).1
    split at h
    · rcases List.mem_cons.mp h with rfl | h
      · exact ⟨site.loop, .execBlock (.block hb), hc⟩
      · obtain ⟨flow, after, hrun, h⟩ := mem_andThen h
        have hbody : Fine m site.loop (Flow.Allowed site.loop) _ := ih.execBlock (.block hb) hc
        have hc := (hbody.of_ok hrun).1
        have hnext : p ∈ andThen (Machine.step host after) (fun _ after => [(⟨fuel, .loop cond body, after⟩ : Point)]) := by
          cases flow with
          | break_ => nomatch h
          | return_ v => nomatch h
          | normal => exact h
          | continue_ => exact h
        obtain ⟨_, after, hrun, h⟩ := mem_andThen hnext
        obtain rfl := List.mem_singleton.mp h
        exact ⟨site, .loop hcond hb, ((Fine.step hc).of_ok hrun).1⟩
    · nomatch h

/-- What a scoped point starts is scoped. -/
theorem starts_scoped {q : Point} (hp : PointScoped m q) (h : p ∈ q.starts host) : PointScoped m p := by
  obtain ⟨site, htask, hc⟩ := hp
  obtain ⟨fuel, task, s⟩ := q
  cases htask with
  | @enter span nameSpan name from_ f args home inner outer layer ho hs hlength hname hhome hf =>
    have hstarts : p ∈ (if s.budget.limits.maxCallDepth ≤ s.budget.depth then [] else
        [⟨fuel, .execAll f.body.stmts, s.called name (callFrame f args)⟩] : List Point) := by
      cases fuel <;> exact h
    split at hstarts
    · nomatch hstarts
    · obtain rfl := List.mem_singleton.mp hstarts
      -- The body starts on the chain of the scope that declares the function, with the frame of the call in front.
      obtain ⟨params, stmts, names, hbody, hframe⟩ := ChainAux.instance_callFrame hf hlength
      rw [hhome] at hframe
      have hchain := Chain.called hc hs hframe
      have hinside : (home.function.enter params stmts names).layers = .block params stmts names :: layer :: outer :=
        congrArg _ hhome
      refine ⟨home.function.enter params stmts names, .execAll ?_, hinside ▸ hchain⟩
      revert hbody
      cases f.body with
      | mk locals functions body =>
        rintro ⟨hd, hm, hf, hs⟩
        exact hs
  | eval he =>
    cases fuel with
    | zero => nomatch h
    | succ fuel => exact evalStarts_scoped he hc h
  | @evalAll es hes =>
    rcases fuel with _ | fuel
    · nomatch h
    · cases es with
      | nil => nomatch h
      | cons e es =>
        rcases List.mem_cons.mp h with rfl | h
        · exact ⟨site, .eval (hes e List.mem_cons_self), hc⟩
        · obtain ⟨v, after, hrun, h⟩ := mem_andThen h
          obtain rfl := List.mem_singleton.mp h
          refine ⟨site, .evalAll fun e he => hes e (List.mem_cons_of_mem _ he), ?_⟩
          exact (((sound fuel).eval (hes e List.mem_cons_self) hc).of_ok hrun).1
  | @evalFields table fields hfields =>
    rcases fuel with _ | fuel
    · nomatch h
    · cases fields with
      | nil => nomatch h
      | cons field fields =>
        obtain ⟨key, value⟩ := field
        have hhere := hfields _ List.mem_cons_self
        rcases List.mem_cons.mp h with rfl | h
        · exact ⟨site, .eval hhere.1, hc⟩
        · obtain ⟨k, after, hrun, h⟩ := mem_andThen h
          have hc := (((sound fuel).eval hhere.1 hc).of_ok hrun).1
          rcases List.mem_cons.mp h with rfl | h
          · exact ⟨site, .eval hhere.2, hc⟩
          · obtain ⟨v, after, hrun, h⟩ := mem_andThen h
            obtain rfl := List.mem_singleton.mp h
            have hc := (((sound fuel).eval hhere.2 hc).of_ok hrun).1
            exact ⟨site, .evalFields fun field hf => hfields field (List.mem_cons_of_mem _ hf), hc⟩
  | @evalPath path hpath =>
    rcases fuel with _ | fuel
    · nomatch h
    · rcases path with _ | ⟨_ | key, path⟩
      · nomatch h
      · obtain rfl := List.mem_singleton.mp h
        exact ⟨site, .evalPath fun k hk => hpath k (List.mem_cons_of_mem _ hk), hc⟩
      · have hkey := hpath key List.mem_cons_self
        rcases List.mem_cons.mp h with rfl | h
        · exact ⟨site, .eval hkey, hc⟩
        · obtain ⟨v, after, hrun, h⟩ := mem_andThen h
          obtain rfl := List.mem_singleton.mp h
          refine ⟨site, .evalPath fun k hk => hpath k (List.mem_cons_of_mem _ hk), ?_⟩
          exact (((sound fuel).eval hkey hc).of_ok hrun).1
  | @execBlock block hblock =>
    rcases fuel with _ | fuel
    · nomatch h
    · obtain rfl := List.mem_singleton.mp h
      exact execBlock_scoped hblock hc
  | @execAll stmts hstmts =>
    rcases fuel with _ | fuel
    · nomatch h
    · cases stmts with
      | nil => nomatch h
      | cons st stmts =>
        have hhere := hstmts st List.mem_cons_self
        rcases List.mem_cons.mp h with rfl | h
        · exact ⟨site, .exec hhere, hc⟩
        · obtain ⟨flow, after, hrun, h⟩ := mem_andThen h
          cases flow with
          | normal =>
            obtain rfl := List.mem_singleton.mp h
            refine ⟨site, .execAll fun st hst => hstmts st (List.mem_cons_of_mem _ hst), ?_⟩
            exact (((sound fuel).exec hhere hc).of_ok hrun).1
          | break_ => nomatch h
          | continue_ => nomatch h
          | return_ v => nomatch h
  | exec hst =>
    rcases fuel with _ | fuel
    · nomatch h
    · obtain ⟨_, after, hrun, h⟩ := mem_andThen h
      exact execStarts_scoped hst ((Fine.step hc).of_ok hrun).1 h
  | loop hcond hb =>
    rcases fuel with _ | fuel
    · nomatch h
    · exact loopStarts_scoped hcond hb hc h
  | assign ho hbinds => cases fuel <;> nomatch h
  | apply harity => cases fuel <;> nomatch h

/-- Every point of the run of a scoped part is scoped. -/
theorem reached_scoped {q : Point} (hq : PointScoped m q) (h : Reached host q p) : PointScoped m p := by
  induction h with
  | start => exact hq
  | later _ hr ih => exact starts_scoped ih hr

/-- The names declared in the layers inside and outside a layer. -/
theorem blocks_append (inner : List Layer) (layer : Layer) (outer : List Layer) (name : String)
    (h : layer.names.lookup name ≠ none) :
    Layer.blocks (inner ++ layer :: outer) = Layer.blocks inner ++ layer.names :: Layer.blocks outer := by
  induction inner with
  | nil =>
    cases layer with
    | block params stmts names => rfl
    | elseIf => exact absurd rfl h
  | cons first inner ih =>
    cases first with
    | block params stmts names => exact congrArg (names :: ·) ih
    | elseIf => exact ih

end ScopingAux

/-! ## The statement -/

/-- The walk along the scopes for a name agrees with the resolver at a site. The resolver selects, among the blocks around the site,
the innermost in which the name is declared. The walk stops at the given scope, which is the instance of the layer of that block
and has the given scopes around it, at a slot of the kind of the binding. -/
structure WalkAgrees (m : Module) (site : Site) (name : String) (binding : Binding) (scopes : List Scope) (scope : Scope)
    (rest : List Scope) (slot : Slot) : Prop where
  lookup : (site.context m).lookup name = some binding
  lands : ∃ inner layer outer hidden,
    (site.context m).blocks = Layer.blocks inner ++ layer.names :: Layer.blocks outer ∧
      Lands m site.layers scopes name binding inner layer outer hidden scope rest slot

/-- The walks that a point makes agree with the resolver: those for a variable that is read or assigned, and for a function that
is called. A call is entered with as many arguments as its function takes, in a frame on top of the scope in which the function is
found; a builtin is called with as many arguments as it takes. -/
def Point.WalksAgree (m : Module) (p : Point) : Prop :=
  match p.task with
  | .eval (.local_ span name) => ∃ site binding scope rest slot, Occurs m site (.expr (.var span name)) ∧
    (binding = .variable ∨ binding = .param) ∧ WalkAgrees m site name binding p.state.scopes scope rest slot
  | .eval (.call span name args) => ∃ site nameSpan from_ scope rest f,
    Occurs m site (.expr (.call span (.var nameSpan name) from_)) ∧ f.params.length = args.length ∧
      WalkAgrees m site name (.function args.length) p.state.scopes scope rest (.function f)
  | .assign span name _ _ => ∃ site binding scope rest slot, Occurs m site (.target (.var span name)) ∧
    (binding = .variable ∨ binding = .param) ∧ WalkAgrees m site name binding p.state.scopes scope rest slot
  | .enter name f args => ∃ site span nameSpan from_ scope rest,
    Occurs m site (.expr (.call span (.var nameSpan name) from_)) ∧ f.params.length = args.length ∧
      WalkAgrees m site name (.function args.length) p.state.scopes scope rest (.function f) ∧
      (p.state.called name (callFrame f args)).scopes = callFrame f args :: scope :: rest
  | .apply function args => ∀ arity, function.arity? = some arity → args.length = arity
  | _ => True

namespace ScopingAux

variable {m : Module} {site : Site} {name : String} {binding : Binding} {scopes : List Scope}

/-- A walk that lands agrees with the resolver. -/
theorem walkAgrees_of_lands {inner outer : List Layer} {layer : Layer} {hidden rest : List Scope} {scope : Scope} {slot : Slot}
    (h : Lands m site.layers scopes name binding inner layer outer hidden scope rest slot) :
    WalkAgrees m site name binding scopes scope rest slot := by
  have hne : layer.names.lookup name ≠ none := by rw [h.selects.declared]; nofun
  refine ⟨?_, inner, layer, outer, hidden, ?_, h⟩
  · rw [lookup_blocks, h.selects.split, List.findSome?_append, List.findSome?_cons, h.selects.declared]
    rw [List.findSome?_eq_none_iff.mpr h.selects.inside]
    rfl
  · exact (congrArg Layer.blocks h.selects.split).trans (blocks_append inner layer outer name hne)

/-- A name that has been looked up is found where the resolver has found it. -/
theorem walkAgrees (hc : Chain m site.layers scopes) (hlookup : (site.context m).lookup name = some binding) :
    ∃ scope rest slot, WalkAgrees m site name binding scopes scope rest slot := by
  rw [lookup_blocks] at hlookup
  obtain ⟨inner, layer, outer, hselects⟩ := selects_of_lookup hlookup
  obtain ⟨hidden, scope, rest, slot, hlands⟩ := hc.lands hselects
  exact ⟨scope, rest, slot, walkAgrees_of_lands hlands⟩

theorem walkAgrees_value (hc : Chain m site.layers scopes) (hbinds : (site.context m).BindsValue name) :
    ∃ binding scope rest slot, (binding = .variable ∨ binding = .param) ∧
      WalkAgrees m site name binding scopes scope rest slot := by
  rcases hbinds with h | h
  · obtain ⟨scope, rest, slot, hwalk⟩ := walkAgrees hc h
    exact ⟨_, scope, rest, slot, Or.inl rfl, hwalk⟩
  · obtain ⟨scope, rest, slot, hwalk⟩ := walkAgrees hc h
    exact ⟨_, scope, rest, slot, Or.inr rfl, hwalk⟩

/-- The walk for a function finds one that takes as many arguments. -/
theorem walkAgrees_function {arity : Nat} (hc : Chain m site.layers scopes)
    (hlookup : (site.context m).lookup name = some (.function arity)) :
    ∃ scope rest f, f.params.length = arity ∧ WalkAgrees m site name (.function arity) scopes scope rest (.function f) := by
  obtain ⟨scope, rest, slot, hwalk⟩ := walkAgrees hc hlookup
  obtain ⟨inner, layer, outer, hidden, _, hlands⟩ := hwalk.lands
  have hkind := hlands.kind
  generalize hb : Binding.function arity = b at hkind
  cases hkind with
  | function hhome h =>
    obtain rfl := Binding.function.inj hb
    exact ⟨scope, rest, _, rfl, hwalk⟩
  | _ => nomatch hb

/-- The function that a call enters is still the one that its name stands for, and the frame is put on the scope that has it. -/
theorem walkAgrees_enter {f : Function} {args : List Value} {home : Site} {inner outer : List Layer} {layer : Layer} {s : State}
    (hc : Chain m site.layers s.scopes) (hs : Selects site.layers f.name (.function args.length) inner layer outer)
    (hhome : home.layers = layer :: outer) (hf : FunctionScoped m home f) :
    ∃ scope rest, WalkAgrees m site f.name (.function args.length) s.scopes scope rest (.function f) ∧
      (s.called f.name (callFrame f args)).scopes = callFrame f args :: scope :: rest := by
  obtain ⟨hidden, scope, rest, slot, hlands⟩ := hc.lands hs
  have hslot : slot = .function f := by
    have hkind := hlands.kind
    generalize hb : Binding.function args.length = b at hkind
    generalize hn : f.name = n at hkind
    cases hkind with
    | function hhome' hf' => rw [hf'.unique hf (hhome'.trans hhome.symm) hn.symm]
    | _ => nomatch hb
  subst hslot
  refine ⟨scope, rest, walkAgrees_of_lands hlands, ?_⟩
  unfold State.called
  dsimp only
  rw [hlands.depth, hlands.split, List.drop_left]

/-- The walks from a scoped point agree with the resolver. -/
theorem walksAgree_of_scoped {p : Point} (h : PointScoped m p) : p.WalksAgree m := by
  obtain ⟨site, htask, hc⟩ := h
  obtain ⟨fuel, task, s⟩ := p
  cases htask with
  | eval he =>
    cases he with
    | local_ ho hbinds =>
      obtain ⟨binding, scope, rest, slot, hbinding, hwalk⟩ := walkAgrees_value hc hbinds
      exact ⟨site, binding, scope, rest, slot, ho, hbinding, hwalk⟩
    | call ho hbinds hargs =>
      obtain ⟨scope, rest, f, hlength, hwalk⟩ := walkAgrees_function hc hbinds
      exact ⟨site, _, _, scope, rest, f, ho, hlength, hwalk⟩
    | _ => trivial
  | assign ho hbinds =>
    obtain ⟨binding, scope, rest, slot, hbinding, hwalk⟩ := walkAgrees_value hc hbinds
    exact ⟨site, binding, scope, rest, slot, ho, hbinding, hwalk⟩
  | enter ho hs hlength hname hhome hf =>
    subst hname
    obtain ⟨scope, rest, hwalk, hframe⟩ := walkAgrees_enter hc hs hhome hf
    exact ⟨site, _, _, _, scope, rest, ho, hlength.symm, hwalk, hframe⟩
  | apply harity => exact harity
  | _ => trivial

theorem mapError_ok {ε ε' α : Type} {f : ε → ε'} {r : Except ε α} {a : α} (h : r.mapError f = .ok a) : r = .ok a := by
  cases r with
  | error e => nomatch h
  | ok b => exact congrArg Except.ok (Except.ok.inj h)

end ScopingAux

open ScopingAux SoundAux in
/-- A program that is compiled from a source runs, under any limits and with any answers, so that at every point of the run the
walks for names agree with the resolver. The run does not fail because a name is not defined or of another kind, because a
function takes another number of arguments, or because control leaves the program. A run in which functions are linked to the scopes
that declare them, and scopes are released when nothing has hold of them, ends in the same way. -/
theorem resolved_names_found (source : Source) (program : Program) (h : Program.ofSource source = .ok program) :
    ∃ m, Module.ofSource source = .ok m ∧ Scoped m program ∧
      ∀ (host : Host) (fuel : Nat) (limits : Limits) (answers : List String),
        (∀ p, Reached host ⟨fuel, .execBlock program.body, .start limits answers⟩ p → p.WalksAgree m) ∧
        (Linked.runFor host fuel limits answers program = runFor host fuel limits answers program) ∧
        ∀ halt, (runFor host fuel limits answers program).halt = some halt → ¬halt.RuledOut := by
  unfold Program.ofSource at h
  obtain ⟨m, hm, h⟩ := NamesAux.bind_eq_ok.mp h
  have hmodule : Module.ofSource source = .ok m := mapError_ok hm
  have hprogram : ofModule m = .ok program := mapError_ok h
  have hscoped := ofModule_scoped hprogram
  refine ⟨m, hmodule, hscoped, fun host fuel limits answers =>
    ⟨fun p hp => ?_, Linked.runFor_eq host fuel limits answers program, fun halt hhalt => ?_⟩⟩
  · obtain ⟨names, hbody⟩ := hscoped
    have hstart : PointScoped m ⟨fuel, .execBlock program.body, .start limits answers⟩ :=
      ⟨Site.outermost, .execBlock (.block hbody), trivial⟩
    exact walksAgree_of_scoped (reached_scoped hstart hp)
  · obtain ⟨names, hbody⟩ := hscoped
    have hblock : Fine m Site.outermost (Flow.Allowed Site.outermost)
        (execBlock host fuel program.body (.start limits answers)) := (sound fuel).execBlock (.block hbody) trivial
    have hrun : Fine m Site.outermost (fun _ => True) (runWith host fuel program (.start limits answers)) := by
      refine .bind hblock fun flow after _ hc hflow => ?_
      cases flow with
      | normal => exact .pure hc trivial
      | _ => nomatch hflow
    unfold runFor at hhalt
    cases hresult : runWith host fuel program (.start limits answers) with
    | ok a after =>
      rw [hresult] at hhalt
      nomatch hhalt
    | error halt' after =>
      rw [hresult] at hhalt hrun
      obtain rfl := Option.some.inj hhalt
      exact hrun

/-- A call in front of the declaration of its function is compiled, and finds the function, whose scope has not been released. -/
theorem resolved_names_found_call :
    ∃ program, Program.ofSource ⟨"call", "f(1);function f(a){a;}"⟩ = .ok program ∧
      ∀ (host : Host) (fuel : Nat) (limits : Limits) (answers : List String) (halt : Halt),
        (Linked.runFor host fuel limits answers program).halt = some halt → ¬halt.RuledOut := by
  have hcompiles : (Program.ofSource ⟨"call", "f(1);function f(a){a;}"⟩).toOption.isSome := by decide +kernel
  cases h : Program.ofSource ⟨"call", "f(1);function f(a){a;}"⟩ with
  | error fault =>
    rw [h] at hcompiles
    contradiction
  | ok program =>
    obtain ⟨m, _, _, hruns⟩ := resolved_names_found _ program h
    refine ⟨program, rfl, fun host fuel limits answers => ?_⟩
    obtain ⟨-, hlinked, hhalt⟩ := hruns host fuel limits answers
    rw [hlinked]
    exact hhalt

end HostScript.Machine
