import Mathlib
import HostScript.Proofs.Machine.Primitive

/-!
# Parts of a run that end

The fuel bounds the recursion and has no counterpart in a script. A part of a run ends if with enough fuel it gives one result that
does not depend on the fuel and is not the want of it. `Carries G Q r` says that the part `r` ends whenever it is started in a state
of `G`, and that a value it ends with and the state after it satisfy `Q`: the sets of states carry the measures by which loops and
calls come to an end. The evaluation of expressions recurs on their syntax except in calls, so a `Stage` collects what a set of
states has to provide, and every expression can be evaluated in it.
-/

namespace HostScript.Machine

open Program (Expression Statement Block Place PathSegment Function)

variable {α β : Type}

/-- A part has ended, with a value and in a state as required, or with a fault. -/
def Done (Q : α → State → Prop) : EStateM.Result Halt State α → Prop
  | .ok a after => Q a after
  | .error halt _ => halt ≠ .outOfFuel

/-- With enough fuel the result does not depend on the fuel, and it is not the want of fuel. -/
def Settles (Q : α → State → Prop) (r : Nat → EStateM.Result Halt State α) : Prop :=
  ∃ enough out, Done Q out ∧ ∀ fuel, enough ≤ fuel → r fuel = out

/-- A part ends in every state of a set, with a value and in a state as required. -/
def Carries (G : State → Prop) (Q : α → State → Prop) (r : Nat → Run α) : Prop :=
  ∀ m, G m → Settles Q fun fuel => r fuel m

/-! ## Results -/

/-- What has ended without any fuel has settled. -/
theorem Settles.done {Q : α → State → Prop} {out : EStateM.Result Halt State α} (h : Done Q out) : Settles Q fun _ => out :=
  ⟨0, out, h, fun _ _ => rfl⟩

/-- A part that needs one more unit of fuel than another ends if the other does. -/
theorem Settles.succ {Q : α → State → Prop} {r : Nat → EStateM.Result Halt State α} (h : Settles Q fun fuel => r (fuel + 1)) :
    Settles Q r := by
  obtain ⟨enough, out, hdone, hsame⟩ := h
  refine ⟨enough + 1, out, hdone, fun fuel hfuel => ?_⟩
  obtain ⟨fuel, rfl⟩ := Nat.exists_eq_add_of_le' (show 1 ≤ fuel by omega)
  exact hsame fuel (by omega)

/-- What a settled result says may be weakened. -/
theorem Settles.mono {Q Q' : α → State → Prop} {r : Nat → EStateM.Result Halt State α} (h : Settles Q r)
    (hQ : ∀ a after, Q a after → Q' a after) : Settles Q' r := by
  obtain ⟨enough, out, hdone, hsame⟩ := h
  refine ⟨enough, out, ?_, hsame⟩
  cases out with
  | ok a after => exact hQ a after hdone
  | error halt after => exact hdone

/-- A change of the state at the end of a part leaves it settled. -/
theorem Settles.leaving {Q Q' : α → State → Prop} {r : Nat → EStateM.Result Halt State α} {f : State → State} (h : Settles Q r)
    (hQ : ∀ a after, Q a after → Q' a (f after)) : Settles Q' fun fuel => Machine.leaving f (r fuel) := by
  obtain ⟨enough, out, hdone, hsame⟩ := h
  refine ⟨enough, Machine.leaving f out, ?_, fun fuel hfuel => congrArg _ (hsame fuel hfuel)⟩
  cases out with
  | ok a after => exact hQ a after hdone
  | error halt after => exact hdone

/-! ## Composed parts -/

namespace Carries

variable {G G' : State → Prop} {Q Q' : α → State → Prop}

/-- A part ends from fewer states, and what it leads to may be weakened. -/
theorem mono {r : Nat → Run α} (h : Carries G Q r) (hG : ∀ m, G' m → G m) (hQ : ∀ a after, Q a after → Q' a after) :
    Carries G' Q' r := fun m hm => (h m (hG m hm)).mono hQ

/-- The fuel of a part counts from one as well as from zero. -/
theorem succ {r : Nat → Run α} (h : Carries G Q fun fuel => r (fuel + 1)) : Carries G Q r := fun m hm => (h m hm).succ

/-- A value is a part that ends at once. -/
theorem pure (a : α) (h : ∀ m, G m → Q a m) : Carries G Q fun _ => Pure.pure a := fun m hm => .done (h m hm)

/-- A part that recurs nowhere ends if its one result is as required. -/
theorem primitive {r : Run α} (h : ∀ m, G m → Done Q (r m)) : Carries G Q fun _ => r := fun m hm => .done (h m hm)

/-- A fault is a part that ends. -/
theorem failAt (span : Span) (problem : Problem) : Carries G Q fun _ => Machine.failAt span problem :=
  .primitive fun _ _ => Halt.noConfusion

/-- A condition that does not depend on the state can be taken out of the set of states. -/
theorem of_and {p : Prop} {r : Nat → Run α} (h : p → Carries G Q r) : Carries (fun m => p ∧ G m) Q r :=
  fun m hm => h hm.1 m hm.2

/-- Two parts one after the other end if the first does and the second does from what the first leads to. -/
theorem bind {R : β → State → Prop} {r : Nat → Run α} {f : Nat → α → Run β} (hr : Carries G Q r)
    (hf : ∀ a, Carries (Q a) R fun fuel => f fuel a) : Carries G R fun fuel => r fuel >>= f fuel := by
  intro m hm
  obtain ⟨enough, out, hdone, hsame⟩ := hr m hm
  cases out with
  | error halt after => exact ⟨enough, .error halt after, hdone, fun fuel hfuel => bind_error (hsame fuel hfuel) _⟩
  | ok a after =>
    obtain ⟨enough', out', hdone', hsame'⟩ := hf a after hdone
    refine ⟨max enough enough', out', hdone', fun fuel hfuel => ?_⟩
    have hfirst : r fuel m = .ok a after := hsame fuel (by omega)
    calc (r fuel >>= f fuel) m = f fuel a after := bind_ok hfirst _
      _ = out' := hsame' fuel (by omega)

/-- An operation on values ends, with its result or with a fault. -/
theorem locate {ε : Type} (span : Span) (wrap : ε → Problem) (r : Except ε α) (h : ∀ a m, G m → Q a m) :
    Carries G Q fun _ => Machine.locate span wrap r := by
  cases r with
  | ok a => exact pure a (h a)
  | error e => exact failAt span (wrap e)

/-- A part in a scope of its own ends if the scope leads into a set of states from which the part ends, and the end of the scope leads back.
-/
theorem inScope {scope : Scope} {body : Nat → Run α} (h : Carries G' Q body)
    (hpush : ∀ m, G m → G' { m with scopes := scope :: m.scopes }) (hpop : ∀ a after, Q a after → Q' a after.dropScope) :
    Carries G Q' fun fuel => Machine.inScope scope (body fuel) := by
  intro m hm
  simp only [inScope_apply]
  exact (h _ (hpush m hm)).leaving hpop

end Carries

/-! ## Stages -/

/-- A chain of scopes after a name has been bound in the innermost one. -/
def boundScopes (name : String) (slot : Slot) : List Scope → List Scope
  | [] => [[(name, slot)]]
  | scope :: rest => Scope.set name slot scope :: rest

/-- Binding a name succeeds and changes the chain of scopes only. -/
theorem bindName_boundScopes (name : String) (slot : Slot) (m : State) :
    Machine.bind name slot m = .ok () { m with scopes := boundScopes name slot m.scopes } := by
  rw [bindName_apply]
  cases m.scopes <;> rfl

/-- A set of states in which expressions can be evaluated: the evaluation of an expression does not lead out of it, and the functions
that can be found in its states can be called. -/
structure Stage (host : Host) (G : State → Prop) (C : Function → Prop) : Prop where
  exchanged {m : State} (events : List Event) (answers : List String) : G m → G { m with events, answers }
  exported {m : State} (exports : Value) : G m → G { m with exports }
  bound {m : State} (name : String) (v : Value) : G m → G { m with scopes := boundScopes name (.value v) m.scopes }
  replaced {m : State} (name : String) (v : Value) : G m → G { m with scopes := replaceSlot name (.value v) m.scopes }
  found {m : State} {name : String} {f : Function} : G m → findSlot? name m.scopes = some (.function f) → C f
  call {f : Function} (name : String) (args : List Value) : C f →
    Carries G (fun _ => G) fun fuel => inCall name (callFrame f args) (execAll host fuel f.body.stmts)

namespace Stage

variable {host : Host} {G G' : State → Prop} {C : Function → Prop}

/-! The primitive parts -/

/-- A variable can be read in any set of states and leaves the state alone. -/
theorem readVariable (span : Span) (name : String) :
    Carries G (fun _ => G) fun _ => readVariable span name := by
  refine .primitive fun m hm => ?_
  rw [readVariable_apply]
  split
  · exact hm
  all_goals exact Halt.noConfusion

/-- A function that is read in a stage is one that can be called there. -/
theorem readFunction (h : Stage host G C) (span : Span) (name : String) :
    Carries G (fun f m => C f ∧ G m) fun _ => readFunction span name := by
  refine .primitive fun m hm => ?_
  rw [readFunction_apply]
  split
  · rename_i f hf
    exact ⟨h.found hm hf, hm⟩
  all_goals exact Halt.noConfusion

/-- An event does not lead out of a stage. -/
theorem record (h : Stage host G C) (event : Event) : Carries G (fun _ => G) fun _ => record event :=
  .primitive fun m hm => h.exchanged (event :: m.events) m.answers hm

/-- A question to the host does not lead out of a stage, answered or not. -/
theorem ask (h : Stage host G C) (span : Span) (prompt : String) : Carries G (fun _ => G) fun _ => ask host span prompt := by
  refine .primitive fun m hm => ?_
  rw [ask_apply]
  split
  · exact Halt.noConfusion
  · exact h.exchanged _ _ hm

/-- Binding a value does not lead out of a stage. -/
theorem bindName (h : Stage host G C) (name : String) (v : Value) :
    Carries G (fun _ => G) fun _ => Machine.bind name (.value v) := by
  refine .primitive fun m hm => ?_
  rw [bindName_boundScopes]
  exact h.bound name v hm

/-- An assignment to a variable does not lead out of a stage. -/
theorem assignVariable (h : Stage host G C) (span : Span) (name : String) (path : List Value) (v : Value) :
    Carries G (fun _ => G) fun _ => assignVariable span name path v := by
  refine .primitive fun m hm => ?_
  rw [assignVariable_apply]
  split
  · dsimp only
    split
    · exact h.replaced name _ hm
    · exact Halt.noConfusion
  all_goals exact Halt.noConfusion

/-- An assignment to the exports does not lead out of a stage. -/
theorem assignExports (h : Stage host G C) (span : Span) (path : List Value) (v : Value) :
    Carries G (fun _ => G) fun _ => assignExports span path v := by
  refine .primitive fun m hm => ?_
  rw [assignExports_apply]
  split
  · exact h.exported _ hm
  · exact Halt.noConfusion

/-! Expressions -/

mutual

/-- The evaluation of every expression ends. -/
theorem eval (h : Stage host G C) (e : Expression) : Carries G (fun _ => G) fun fuel => Machine.eval host fuel e := by
  refine .succ ?_
  cases e with
  | const v => exact .pure v fun _ hm => hm
  | local_ span name => exact readVariable span name
  | array items => exact .bind (evalAll h items) fun vs => .pure _ fun _ hm => hm
  | object fields => exact .bind (evalFields h .empty fields) fun table => .pure _ fun _ hm => hm
  | unary span op operand => exact .bind (eval h operand) fun v => .locate _ _ _ fun _ _ hm => hm
  | arith span op left right =>
    exact .bind (eval h left) fun l => .bind (eval h right) fun r => .locate _ _ _ fun _ _ hm => hm
  | compare span op left right =>
    exact .bind (eval h left) fun l => .bind (eval h right) fun r => .locate _ _ _ fun _ _ hm => hm
  | logic op left right =>
    refine .bind (eval h left) fun l => ?_
    have hboth : Carries G (fun _ => G) fun fuel => (Machine.eval host fuel right >>= fun v => pure (Value.bool v.isTruthy)) :=
      .bind (eval h right) fun v => .pure _ fun _ hm => hm
    cases op <;> cases l.isTruthy <;> first | exact hboth | exact .pure _ fun _ hm => hm
  | member span base field => exact .bind (eval h base) fun v => .locate _ _ _ fun _ _ hm => hm
  | index span base key => exact .bind (eval h base) fun v => .bind (eval h key) fun k => .locate _ _ _ fun _ _ hm => hm
  | call span name args =>
    refine .bind (h.readFunction span name) fun f => ?_
    refine .of_and fun hf => ?_
    by_cases harity : (args.length != f.params.length) = true
    · simp only [harity, if_true]
      exact .bind (Q := fun _ _ => False) (.failAt _ _) fun _ m hm => hm.elim
    · simp only [harity]
      refine .bind (evalAll h args) fun vs => .bind (h.call name vs hf) fun flow => ?_
      cases flow <;> exact .pure _ fun _ hm => hm
  | builtin span function args => exact .bind (evalAll h args) fun vs => .locate _ _ _ fun _ _ hm => hm
  | output span value => exact .bind (eval h value) fun v => .bind (h.record _) fun _ => .pure _ fun _ hm => hm
  | input span prompt => exact .bind (eval h prompt) fun p => .bind (h.ask span _) fun line => .pure _ fun _ hm => hm
  | exports => exact .primitive fun m hm => hm
termination_by structural e

/-- The evaluation of expressions one after the other ends. -/
theorem evalAll (h : Stage host G C) (es : List Expression) : Carries G (fun _ => G) fun fuel => Machine.evalAll host fuel es := by
  refine .succ ?_
  cases es with
  | nil => exact .pure _ fun _ hm => hm
  | cons e rest => exact .bind (eval h e) fun v => .bind (evalAll h rest) fun vs => .pure _ fun _ hm => hm
termination_by structural es

/-- The evaluation of the fields of an object ends. -/
theorem evalFields (h : Stage host G C) (table : Table Value) (fields : List (Expression × Expression)) :
    Carries G (fun _ => G) fun fuel => Machine.evalFields host fuel table fields := by
  refine .succ ?_
  cases fields with
  | nil => exact .pure _ fun _ hm => hm
  | cons field rest =>
    obtain ⟨key, value⟩ := field
    exact .bind (eval h key) fun k => .bind (eval h value) fun v => evalFields h _ rest
termination_by structural fields

end

/-- The evaluation of the keys of a path ends. -/
theorem evalPath (h : Stage host G C) (path : List PathSegment) : Carries G (fun _ => G) fun fuel => Machine.evalPath host fuel path := by
  induction path with
  | nil => exact .succ (.pure _ fun _ hm => hm)
  | cons segment rest ih =>
    refine .succ ?_
    cases segment with
    | field name => exact .bind ih fun vs => .pure _ fun _ hm => hm
    | index key => exact .bind (eval h key) fun v => .bind ih fun vs => .pure _ fun _ hm => hm

/-! Statements -/

/-- The blocks and the loop directly inside a statement end. -/
def Inner (host : Host) (G : State → Prop) : Statement → Prop
  | .if_ _ body otherwise => Carries G (fun _ => G) (fun fuel => execBlock host fuel body) ∧
    ∀ block, otherwise = some block → Carries G (fun _ => G) fun fuel => execBlock host fuel block
  | .while_ _ cond body => Carries G (fun _ => G) fun fuel => loop host fuel cond body
  | .block body => Carries G (fun _ => G) fun fuel => execBlock host fuel body
  | _ => True

/-- The execution of a statement ends if its step leads to a stage in which the blocks and the loop inside it end. -/
theorem exec (h : Stage host G' C) (hstep : Carries G (fun _ => G') fun _ => step host) {s : Statement} (hs : Inner host G' s) :
    Carries G (fun _ => G') fun fuel => Machine.exec host fuel s := by
  refine .succ ?_
  unfold Machine.exec
  refine .bind hstep fun _ => ?_
  cases s with
  | let_ name value => exact .bind (eval h value) fun v => .bind (h.bindName name v) fun _ => .pure _ fun _ hm => hm
  | assign target value =>
    refine .bind (eval h value) fun v => ?_
    cases target with
    | local_ span name path =>
      exact .bind (evalPath h path) fun keys => .bind (h.assignVariable span name keys v) fun _ => .pure _ fun _ hm => hm
    | exports span path =>
      exact .bind (evalPath h path) fun keys => .bind (h.assignExports span keys v) fun _ => .pure _ fun _ hm => hm
  | expr e => exact .bind (eval h e) fun _ => .pure _ fun _ hm => hm
  | if_ cond body otherwise =>
    refine .bind (eval h cond) fun v => ?_
    by_cases hv : v.isTruthy = true
    · simp only [hv, if_true]
      exact hs.1
    · simp only [hv]
      cases otherwise with
      | some block => exact hs.2 block rfl
      | none => exact .pure _ fun _ hm => hm
  | while_ span cond body => exact hs
  | return_ value =>
    cases value with
    | none => exact .pure _ fun _ hm => hm
    | some value => exact .bind (eval h value) fun v => .pure _ fun _ hm => hm
  | break_ => exact .pure _ fun _ hm => hm
  | continue_ => exact .pure _ fun _ hm => hm
  | block body => exact hs

end Stage

end HostScript.Machine
