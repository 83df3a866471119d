import Mathlib
import HostScript.Proofs.Machine.Guarded

/-!
# What holds of every part of a run

`Closed` says of a property of parts of a run that the primitive parts have it and that composition keeps it, and
`Closed.everywhere` concludes that every evaluation and execution has it, whatever its fuel. It is `Guarded.throughout` for statements
that need to know nothing about the program.
-/

namespace HostScript.Machine

open Program (Expression Statement Block Place PathSegment Function)

/-- A property that the primitive parts of a run have and that composed parts inherit from their parts. -/
structure Closed (host : Host) (P : (α : Type) → Run α → Prop) : Prop where
  pure {α : Type} (a : α) : P α (pure a)
  bind {α β : Type} {r : Run α} {f : α → Run β} (hr : P α r) (hf : ∀ a, P β (f a)) : P β (r >>= f)
  outOfFuel {α : Type} : P α (throw Halt.outOfFuel)
  failAt {α : Type} (span : Span) (problem : Problem) : P α (failAt span problem)
  exports : P Value (do return (← get).exports)
  step : P Unit (step host)
  output (v : Value) : P Unit (record (.output v))
  ask (span : Span) (prompt : String) : P String (ask host span prompt)
  readVariable (span : Span) (name : String) : P Value (readVariable span name)
  readFunction (span : Span) (name : String) : P Function (readFunction span name)
  bindName (name : String) (slot : Slot) : P Unit (Machine.bind name slot)
  assignVariable (span : Span) (name : String) (path : List Value) (v : Value) :
    P Unit (assignVariable span name path v)
  assignExports (span : Span) (path : List Value) (v : Value) : P Unit (assignExports span path v)
  inScope {α : Type} {body : Run α} (scope : Scope) (h : P α body) : P α (inScope scope body)
  inCall {α : Type} {body : Run α} (name : String) (frame : Scope) (h : P α body) : P α (inCall name frame body)

/-- A property holds of every evaluation and execution with the given fuel. -/
structure Everywhere (host : Host) (P : (α : Type) → Run α → Prop) (fuel : Nat) : Prop where
  eval (e : Expression) : P Value (eval host fuel e)
  evalAll (es : List Expression) : P (List Value) (evalAll host fuel es)
  evalFields (table : Table Value) (fields : List (Expression × Expression)) :
    P (Table Value) (evalFields host fuel table fields)
  evalPath (path : List PathSegment) : P (List Value) (evalPath host fuel path)
  execBlock (block : Block) : P Flow (execBlock host fuel block)
  execAll (stmts : List Statement) : P Flow (execAll host fuel stmts)
  exec (s : Statement) : P Flow (exec host fuel s)
  loop (cond : Expression) (body : Block) : P Flow (loop host fuel cond body)

namespace Closed

variable {host : Host} {P : (α : Type) → Run α → Prop} {fuel : Nat}

/-- A closed property asks nothing of the program. -/
theorem guarded (h : Closed host P) : Guarded host (fun _ => True) P where
  pure := h.pure
  bind := h.bind
  outOfFuel := h.outOfFuel
  failAt := h.failAt
  exports _ := h.exports
  step := h.step
  output _ := h.output
  ask _ := h.ask _
  readVariable := h.readVariable
  called span name _ hf := h.bind (h.readFunction span name) fun g => hf g fun _ _ => trivial
  bindName name v := h.bindName name (.value v)
  assignVariable := h.assignVariable
  assignExports _ := h.assignExports _
  inScope _ := h.inScope _
  inCall name _ _ _ := h.inCall name _

/-- A closed property holds of every evaluation and execution. -/
theorem everywhere (h : Closed host P) (fuel : Nat) : Everywhere host P fuel := by
  have hall := h.guarded.throughout fuel
  have hnodes : ∀ nodes, Admits (fun _ => True) nodes := fun _ _ _ => trivial
  exact {
    eval := fun e => hall.eval (hnodes _)
    evalAll := fun es => hall.evalAll (hnodes _)
    evalFields := fun table fields => hall.evalFields (hnodes _) table
    evalPath := fun path => hall.evalPath (hnodes _)
    execBlock := fun block => hall.execBlock (hnodes _)
    execAll := fun stmts => hall.execAll (hnodes _)
    exec := fun s => hall.exec (hnodes _)
    loop := fun cond body => hall.loop (hnodes _) (hnodes _) }

end Closed

end HostScript.Machine
