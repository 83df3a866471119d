import Mathlib
import HostScript.Machine.Eval
import HostScript.Proofs.Program.Nodes

/-!
# What holds of the parts of a run, by the nodes of the program

The evaluation of expressions, the execution of statements and loops, and the lists between them are eight functions that call one
another. All of them are put together from a few primitive parts by sequencing, by entering a scope and by entering a call.
`Guarded` says of a property of parts of a run that composition keeps it and that the primitive parts have it that stand for admitted nodes,
and `Guarded.throughout` concludes that the evaluation and execution of admitted nodes has it, whatever its fuel.
-/

namespace HostScript.Machine

open Program (Expression Statement Block Place PathSegment Function Node pathNodes)

/-- All nodes in a row of nodes are admitted. -/
def Admits (A : Node → Prop) (nodes : List Node) : Prop := ∀ node ∈ nodes, A node

/-- A property that composed parts of a run inherit from their parts, and that the primitive parts have whose nodes are admitted. The
functions that are called consist of admitted nodes. -/
structure Guarded (host : Host) (A : Node → Prop) (P : (α : Type) → Run α → Prop) : Prop where
  pure {α : Type} (a : α) : P α (pure a)
  bind {α β : Type} {r : Run α} {f : α → Run β} (hr : P α r) (hf : ∀ a, P β (f a)) : P β (r >>= f)
  outOfFuel {α : Type} : P α (throw Halt.outOfFuel)
  failAt {α : Type} (span : Span) (problem : Problem) : P α (failAt span problem)
  exports (h : A (.expr .exports)) : P Value (do return (← get).exports)
  step : P Unit (step host)
  output {span : Span} {value : Expression} (h : A (.expr (.output span value))) (v : Value) : P Unit (record (.output v))
  ask {span : Span} {value : Expression} (h : A (.expr (.input span value))) (prompt : String) : P String (ask host span prompt)
  readVariable (span : Span) (name : String) : P Value (readVariable span name)
  called {α : Type} (span : Span) (name : String) {f : Function → Run α} (hf : ∀ g, Admits A g.nodes → P α (f g)) :
    P α (readFunction span name >>= f)
  bindName (name : String) (v : Value) : P Unit (Machine.bind name (.value v))
  assignVariable (span : Span) (name : String) (path : List Value) (v : Value) : P Unit (assignVariable span name path v)
  assignExports {span : Span} {path : List PathSegment} (h : A (.place (.exports span path))) (keys : List Value) (v : Value) :
    P Unit (assignExports span keys v)
  inScope {α : Type} {body : Run α} {block : Block} (hblock : Admits A block.nodes) (h : P α body) : P α (inScope (bindBlock block []) body)
  inCall {α : Type} {body : Run α} (name : String) {g : Function} (hg : Admits A g.nodes) (args : List Value) (h : P α body) :
    P α (inCall name (callFrame g args) body)

namespace Admits

variable {A : Node → Prop} {node : Node} {nodes more : List Node}

theorem cons (h : Admits A (node :: nodes)) : A node ∧ Admits A nodes := List.forall_mem_cons.mp h

theorem append (h : Admits A (nodes ++ more)) : Admits A nodes ∧ Admits A more := List.forall_mem_append.mp h

theorem cons_append (h : Admits A (node :: (nodes ++ more))) : Admits A nodes ∧ Admits A more := h.cons.2.append

/-- The statements of a block are admitted with it. -/
theorem stmts {block : Block} (h : Admits A block.nodes) : Admits A (Statement.allNodes block.stmts) := by
  obtain ⟨locals, functions, stmts⟩ := block
  exact h.cons_append.2

/-- The functions of a block are admitted with it. -/
theorem functions {block : Block} (h : Admits A block.nodes) : ∀ f ∈ block.functions, Admits A f.nodes := by
  obtain ⟨locals, functions, stmts⟩ := block
  have hall : Admits A (Function.allNodes functions) := h.cons_append.1
  change ∀ f ∈ functions, Admits A f.nodes
  clear h
  induction functions with
  | nil => exact List.forall_mem_nil _
  | cons f rest ih => exact List.forall_mem_cons.mpr ⟨hall.append.1, ih hall.append.2⟩

/-- The body of a function is admitted with it. -/
theorem body {f : Function} (h : Admits A f.nodes) : Admits A f.body.nodes := by
  obtain ⟨span, name, params, body⟩ := f
  exact h.cons.2

end Admits

/-- A property holds of the evaluations and executions of admitted nodes with the given fuel. -/
structure Throughout (host : Host) (A : Node → Prop) (P : (α : Type) → Run α → Prop) (fuel : Nat) : Prop where
  eval {e : Expression} (h : Admits A e.nodes) : P Value (eval host fuel e)
  evalAll {es : List Expression} (h : Admits A (Expression.allNodes es)) : P (List Value) (evalAll host fuel es)
  evalFields {fields : List (Expression × Expression)} (h : Admits A (Expression.fieldNodes fields)) (table : Table Value) :
    P (Table Value) (evalFields host fuel table fields)
  evalPath {path : List PathSegment} (h : Admits A (pathNodes path)) : P (List Value) (evalPath host fuel path)
  execBlock {block : Block} (h : Admits A block.nodes) : P Flow (execBlock host fuel block)
  execAll {stmts : List Statement} (h : Admits A (Statement.allNodes stmts)) : P Flow (execAll host fuel stmts)
  exec {s : Statement} (h : Admits A s.nodes) : P Flow (exec host fuel s)
  loop {cond : Expression} {body : Block} (hcond : Admits A cond.nodes) (hbody : Admits A body.nodes) : P Flow (loop host fuel cond body)

namespace Guarded

variable {host : Host} {A : Node → Prop} {P : (α : Type) → Run α → Prop} {fuel : Nat}

theorem locate (h : Guarded host A P) {ε α : Type} (span : Span) (wrap : ε → Problem) (r : Except ε α) :
    P α (locate span wrap r) := by
  cases r with
  | ok a => exact h.pure a
  | error e => exact h.failAt span (wrap e)

/-- Evaluating an expression has a property that its parts have. -/
theorem eval (h : Guarded host A P) (ih : Throughout host A P fuel) {e : Expression} (he : Admits A e.nodes) :
    P Value (Machine.eval host (fuel + 1) e) := by
  cases e with
  | const v => rw [Machine.eval]; exact h.pure v
  | local_ span name => rw [Machine.eval]; exact h.readVariable span name
  | array items => rw [Machine.eval]; exact h.bind (ih.evalAll he.cons.2) fun vs => h.pure _
  | object fields => rw [Machine.eval]; exact h.bind (ih.evalFields he.cons.2 .empty) fun table => h.pure _
  | unary span op operand => rw [Machine.eval]; exact h.bind (ih.eval he.cons.2) fun v => h.locate span id _
  | arith span op left right =>
    rw [Machine.eval]
    obtain ⟨hleft, hright⟩ := he.cons_append
    exact h.bind (ih.eval hleft) fun l => h.bind (ih.eval hright) fun r => h.locate span id _
  | compare span op left right =>
    rw [Machine.eval]
    obtain ⟨hleft, hright⟩ := he.cons_append
    exact h.bind (ih.eval hleft) fun l => h.bind (ih.eval hright) fun r => h.locate span id _
  | logic op left right =>
    rw [Machine.eval]
    obtain ⟨hleft, hright⟩ := he.cons_append
    refine h.bind (ih.eval hleft) fun l => ?_
    split
    · exact h.pure _
    · exact h.pure _
    · exact h.bind (ih.eval hright) fun r => h.pure _
  | member span base field =>
    rw [Machine.eval]
    exact h.bind (ih.eval he.cons.2) fun v => h.locate span .access _
  | index span base key =>
    rw [Machine.eval]
    obtain ⟨hbase, hkey⟩ := he.cons_append
    exact h.bind (ih.eval hbase) fun v => h.bind (ih.eval hkey) fun k => h.locate span .access _
  | call span name args =>
    rw [Machine.eval]
    refine h.called span name fun f hf => ?_
    -- the check of the number of arguments stands in front of the call proper
    have called : ∀ k : Flow → Run Value, (∀ flow, P Value (k flow)) →
        P Value (Machine.evalAll host fuel args >>= fun vs =>
          Machine.inCall name (callFrame f vs) (Machine.execAll host fuel f.body.stmts) >>= k) := fun k hk =>
      h.bind (ih.evalAll he.cons.2) fun vs => h.bind (h.inCall name hf vs (ih.execAll hf.body.stmts)) hk
    dsimp only
    split
    · exact h.bind (h.failAt span _) fun _ => called _ fun flow => by cases flow <;> exact h.pure _
    · exact called _ fun flow => by cases flow <;> exact h.pure _
  | builtin span function args =>
    rw [Machine.eval]
    exact h.bind (ih.evalAll he.cons.2) fun vs => h.locate span .builtin _
  | output span value =>
    rw [Machine.eval]
    exact h.bind (ih.eval he.cons.2) fun v => h.bind (h.output he.cons.1 v) fun _ => h.pure _
  | input span prompt =>
    rw [Machine.eval]
    exact h.bind (ih.eval he.cons.2) fun p => h.bind (h.ask he.cons.1 _) fun line => h.pure _
  | exports => rw [Machine.eval]; exact h.exports he.cons.1

/-- Executing a statement has a property that its parts have. -/
theorem exec (h : Guarded host A P) (ih : Throughout host A P fuel) {s : Statement} (hs : Admits A s.nodes) :
    P Flow (Machine.exec host (fuel + 1) s) := by
  unfold Machine.exec
  refine h.bind h.step fun _ => ?_
  cases s with
  | let_ name value => exact h.bind (ih.eval hs.cons.2) fun v => h.bind (h.bindName name v) fun _ => h.pure _
  | assign target value =>
    obtain ⟨htarget, hvalue⟩ := hs.cons_append
    refine h.bind (ih.eval hvalue) fun v => ?_
    cases target with
    | local_ span name path =>
      exact h.bind (ih.evalPath htarget.cons.2) fun keys => h.bind (h.assignVariable span name keys v) fun _ => h.pure _
    | exports span path =>
      exact h.bind (ih.evalPath htarget.cons.2) fun keys => h.bind (h.assignExports htarget.cons.1 keys v) fun _ => h.pure _
  | expr e => exact h.bind (ih.eval hs.cons.2) fun _ => h.pure _
  | if_ cond body otherwise =>
    cases otherwise with
    | none =>
      obtain ⟨hcond, hbody⟩ := hs.cons_append
      refine h.bind (ih.eval hcond) fun v => ?_
      split
      · exact ih.execBlock hbody
      · exact h.pure _
    | some block =>
      obtain ⟨hcond, hblocks⟩ := hs.cons_append
      obtain ⟨hbody, hblock⟩ := hblocks.append
      refine h.bind (ih.eval hcond) fun v => ?_
      split
      · exact ih.execBlock hbody
      · exact ih.execBlock hblock
  | while_ span cond body =>
    obtain ⟨hcond, hbody⟩ := hs.cons_append
    exact ih.loop hcond hbody
  | return_ value =>
    cases value with
    | none => exact h.pure _
    | some value => exact h.bind (ih.eval hs.cons.2) fun v => h.pure _
  | break_ => exact h.pure _
  | continue_ => exact h.pure _
  | block body => exact ih.execBlock hs.cons.2

/-- A turn of a loop has a property that its parts have. -/
theorem loop (h : Guarded host A P) (ih : Throughout host A P fuel) {cond : Expression} {body : Block} (hcond : Admits A cond.nodes)
    (hbody : Admits A body.nodes) : P Flow (Machine.loop host (fuel + 1) cond body) := by
  rw [Machine.loop]
  refine h.bind (ih.eval hcond) fun v => ?_
  split
  · exact h.pure _
  · refine h.bind (ih.execBlock hbody) fun flow => ?_
    split
    · exact h.pure _
    · exact h.pure _
    · exact h.bind h.step fun _ => ih.loop hcond hbody

/-- Without fuel nothing is done. -/
theorem throughout_zero (h : Guarded host A P) : Throughout host A P 0 where
  eval _ := by unfold Machine.eval; exact h.outOfFuel
  evalAll _ := h.outOfFuel
  evalFields _ _ := h.outOfFuel
  evalPath _ := h.outOfFuel
  execBlock _ := h.outOfFuel
  execAll _ := h.outOfFuel
  exec _ := by unfold Machine.exec; exact h.outOfFuel
  loop _ _ := h.outOfFuel

/-- A guarded property holds of every evaluation and execution of admitted nodes. -/
theorem throughout (h : Guarded host A P) (fuel : Nat) : Throughout host A P fuel := by
  induction fuel with
  | zero => exact h.throughout_zero
  | succ fuel ih =>
    refine ⟨h.eval ih, ?_, ?_, ?_, fun hblock => h.inScope hblock (ih.execAll hblock.stmts), ?_, h.exec ih, h.loop ih⟩
    · rintro (_ | ⟨e, rest⟩) hes
      · exact h.pure _
      · exact h.bind (ih.eval hes.append.1) fun v => h.bind (ih.evalAll hes.append.2) fun vs => h.pure _
    · rintro (_ | ⟨⟨key, value⟩, rest⟩) hfields table
      · exact h.pure _
      · obtain ⟨hfirst, hrest⟩ := hfields.append
        exact h.bind (ih.eval hfirst.append.1) fun k => h.bind (ih.eval hfirst.append.2) fun v => ih.evalFields hrest _
    · rintro (_ | ⟨_ | key, rest⟩) hpath
      · exact h.pure _
      · exact h.bind (ih.evalPath hpath) fun vs => h.pure _
      · exact h.bind (ih.eval hpath.append.1) fun v => h.bind (ih.evalPath hpath.append.2) fun vs => h.pure _
    · rintro (_ | ⟨s, rest⟩) hstmts
      · exact h.pure _
      · obtain ⟨hs, hrest⟩ := hstmts.append
        refine h.bind (ih.exec hs) fun flow => ?_
        split
        · exact ih.execAll hrest
        · exact h.pure _

/-- A whole run of a program that consists of admitted nodes. -/
theorem runWith (h : Guarded host A P) (strayFlow : P Unit (throw (.fault .strayFlow))) (fuel : Nat) {program : Program}
    (hprogram : Admits A program.body.nodes) : P Unit (Machine.runWith host fuel program) := by
  unfold Machine.runWith
  refine h.bind ((h.throughout fuel).execBlock hprogram) fun flow => ?_
  split
  · exact h.pure _
  · exact strayFlow

end Guarded

end HostScript.Machine
