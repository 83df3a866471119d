import Mathlib
import HostScript.Proofs.Machine.Primitive

/-!
# Fuel

With more fuel a part of a run does the same, unless it runs out of the fuel that it has. A program therefore has at most one result
that is not the want of fuel, and `Evaluates` says what it is without a word about how much fuel it takes.
-/

namespace HostScript.Machine

open Program (Expression Statement Block Place PathSegment Function)

variable {α β : Type} {host : Host}

/-- The second part of a run does what the first does, unless the first runs out of fuel. -/
def Extends (r r' : Run α) : Prop := ∀ m, r' m = r m ∨ ∃ after, r m = .error .outOfFuel after

namespace Extends

/-- A part extends itself. -/
theorem refl (r : Run α) : Extends r r := fun _ => .inl rfl

/-- Everything extends the want of fuel. -/
theorem outOfFuel (r : Run α) : Extends (throw .outOfFuel) r := fun m => .inr ⟨m, rfl⟩

/-- Extensions can be extended. -/
theorem trans {r r' r'' : Run α} (h : Extends r r') (h' : Extends r' r'') : Extends r r'' := by
  intro m
  rcases h m with hsame | hout
  · rcases h' m with hsame' | ⟨after, hout'⟩
    · exact .inl (hsame'.trans hsame)
    · exact .inr ⟨after, hsame ▸ hout'⟩
  · exact .inr hout

/-- Two parts one after the other extend two others if each does. -/
theorem bind {r r' : Run α} {f f' : α → Run β} (hr : Extends r r') (hf : ∀ a, Extends (f a) (f' a)) :
    Extends (r >>= f) (r' >>= f') := by
  intro m
  rcases hr m with hsame | ⟨after, hout⟩
  · cases hresult : r m with
    | ok a after =>
      rw [bind_ok hresult, bind_ok (hsame.trans hresult)]
      exact hf a after
    | error halt after =>
      rw [bind_error hresult, bind_error (hsame.trans hresult)]
      exact .inl rfl
  · exact .inr ⟨after, bind_error hout f⟩

/-- What is done with the state that a part leaves is done to both. -/
theorem leaving {r r' : Run α} (h : Extends r r') (f : State → State) (m : State) :
    Machine.leaving f (r' m) = Machine.leaving f (r m) ∨ ∃ after, Machine.leaving f (r m) = .error .outOfFuel after := by
  rcases h m with hsame | ⟨after, hout⟩
  · exact .inl (congrArg _ hsame)
  · exact .inr ⟨f after, congrArg _ hout⟩

/-- A part in a scope of its own. -/
theorem inScope {body body' : Run α} (scope : Scope) (h : Extends body body') :
    Extends (Machine.inScope scope body) (Machine.inScope scope body') := by
  intro m
  rw [inScope_apply, inScope_apply]
  exact h.leaving _ _

/-- The body of a call. -/
theorem inCall {body body' : Run α} (name : String) (frame : Scope) (h : Extends body body') :
    Extends (Machine.inCall name frame body) (Machine.inCall name frame body') := by
  intro m
  rw [inCall_apply, inCall_apply]
  split
  · exact .inl rfl
  · exact h.leaving _ _

end Extends

/-- One more unit of fuel extends every evaluation and execution. -/
structure Refuelled (host : Host) (fuel : Nat) : Prop where
  eval (e : Expression) : Extends (eval host fuel e) (eval host (fuel + 1) e)
  evalAll (es : List Expression) : Extends (evalAll host fuel es) (evalAll host (fuel + 1) es)
  evalFields (table : Table Value) (fields : List (Expression × Expression)) :
    Extends (evalFields host fuel table fields) (evalFields host (fuel + 1) table fields)
  evalPath (path : List PathSegment) : Extends (evalPath host fuel path) (evalPath host (fuel + 1) path)
  execBlock (block : Block) : Extends (execBlock host fuel block) (execBlock host (fuel + 1) block)
  execAll (stmts : List Statement) : Extends (execAll host fuel stmts) (execAll host (fuel + 1) stmts)
  exec (s : Statement) : Extends (exec host fuel s) (exec host (fuel + 1) s)
  loop (cond : Expression) (body : Block) : Extends (loop host fuel cond body) (loop host (fuel + 1) cond body)

namespace Refuelled

variable {fuel : Nat}

/-- An expression is evaluated with one unit of fuel more as before. -/
theorem eval_succ (h : Refuelled host fuel) (e : Expression) :
    Extends (Machine.eval host (fuel + 1) e) (Machine.eval host (fuel + 2) e) := by
  cases e with
  | const v => exact .refl _
  | local_ span name => exact .refl _
  | array items => exact .bind (h.evalAll items) fun _ => .refl _
  | object fields => exact .bind (h.evalFields .empty fields) fun _ => .refl _
  | unary span op operand => exact .bind (h.eval operand) fun _ => .refl _
  | arith span op left right => exact .bind (h.eval left) fun _ => .bind (h.eval right) fun _ => .refl _
  | compare span op left right => exact .bind (h.eval left) fun _ => .bind (h.eval right) fun _ => .refl _
  | logic op left right =>
    refine .bind (h.eval left) fun l => ?_
    cases op <;> cases l.isTruthy <;> first | exact .refl _ | exact .bind (h.eval right) fun _ => .refl _
  | member span base field => exact .bind (h.eval base) fun _ => .refl _
  | index span base key => exact .bind (h.eval base) fun _ => .bind (h.eval key) fun _ => .refl _
  | call span name args =>
    refine .bind (.refl _) fun f => ?_
    by_cases harity : (args.length != f.params.length) = true
    · simp only [harity, if_true]
      exact .refl _
    · simp only [harity]
      exact .bind (h.evalAll args) fun vs => .bind (.inCall name _ (h.execAll _)) fun _ => .refl _
  | builtin span function args => exact .bind (h.evalAll args) fun _ => .refl _
  | output span value => exact .bind (h.eval value) fun _ => .refl _
  | input span prompt => exact .bind (h.eval prompt) fun _ => .refl _
  | exports => exact .refl _

/-- A statement is executed with one unit of fuel more as before. -/
theorem exec_succ (h : Refuelled host fuel) (s : Statement) :
    Extends (Machine.exec host (fuel + 1) s) (Machine.exec host (fuel + 2) s) := by
  unfold Machine.exec
  refine .bind (.refl _) fun _ => ?_
  cases s with
  | let_ name value => exact .bind (h.eval value) fun _ => .refl _
  | assign target value =>
    refine .bind (h.eval value) fun v => ?_
    cases target with
    | local_ span name path => exact .bind (h.evalPath path) fun _ => .refl _
    | exports span path => exact .bind (h.evalPath path) fun _ => .refl _
  | expr e => exact .bind (h.eval e) fun _ => .refl _
  | if_ cond body otherwise =>
    refine .bind (h.eval cond) fun v => ?_
    by_cases hv : v.isTruthy = true
    · simp only [hv, if_true]
      exact h.execBlock body
    · simp only [hv]
      cases otherwise with
      | some block => exact h.execBlock block
      | none => exact .refl _
  | while_ span cond body => exact h.loop cond body
  | return_ value =>
    cases value with
    | none => exact .refl _
    | some value => exact .bind (h.eval value) fun _ => .refl _
  | break_ => exact .refl _
  | continue_ => exact .refl _
  | block body => exact h.execBlock body

/-- A loop goes on with one unit of fuel more as before. -/
theorem loop_succ (h : Refuelled host fuel) (cond : Expression) (body : Block) :
    Extends (Machine.loop host (fuel + 1) cond body) (Machine.loop host (fuel + 2) cond body) := by
  rw [Machine.loop, Machine.loop]
  refine .bind (h.eval cond) fun v => ?_
  by_cases hv : v.isTruthy = true
  · simp only [hv]
    refine .bind (h.execBlock body) fun flow => ?_
    cases flow with
    | break_ => exact .refl _
    | return_ v => exact .refl _
    | normal => exact .bind (.refl _) fun _ => h.loop cond body
    | continue_ => exact .bind (.refl _) fun _ => h.loop cond body
  · simp only [hv]
    exact .refl _

/-- Expressions are evaluated with one unit of fuel more as before. -/
theorem evalAll_succ (h : Refuelled host fuel) (es : List Expression) :
    Extends (Machine.evalAll host (fuel + 1) es) (Machine.evalAll host (fuel + 2) es) := by
  cases es with
  | nil => exact .refl _
  | cons e rest => exact .bind (h.eval e) fun _ => .bind (h.evalAll rest) fun _ => .refl _

/-- Fields are evaluated with one unit of fuel more as before. -/
theorem evalFields_succ (h : Refuelled host fuel) (table : Table Value) (fields : List (Expression × Expression)) :
    Extends (Machine.evalFields host (fuel + 1) table fields) (Machine.evalFields host (fuel + 2) table fields) := by
  cases fields with
  | nil => exact .refl _
  | cons field rest =>
    obtain ⟨key, value⟩ := field
    exact .bind (h.eval key) fun _ => .bind (h.eval value) fun _ => h.evalFields _ rest

/-- The keys of a path are evaluated with one unit of fuel more as before. -/
theorem evalPath_succ (h : Refuelled host fuel) (path : List PathSegment) :
    Extends (Machine.evalPath host (fuel + 1) path) (Machine.evalPath host (fuel + 2) path) := by
  cases path with
  | nil => exact .refl _
  | cons segment rest =>
    cases segment with
    | field name => exact .bind (h.evalPath rest) fun _ => .refl _
    | index key => exact .bind (h.eval key) fun _ => .bind (h.evalPath rest) fun _ => .refl _

/-- Statements are executed with one unit of fuel more as before. -/
theorem execAll_succ (h : Refuelled host fuel) (stmts : List Statement) :
    Extends (Machine.execAll host (fuel + 1) stmts) (Machine.execAll host (fuel + 2) stmts) := by
  cases stmts with
  | nil => exact .refl _
  | cons s rest =>
    refine .bind (h.exec s) fun flow => ?_
    cases flow with
    | normal => exact h.execAll rest
    | _ => exact .refl _

end Refuelled

/-- More fuel changes nothing but a want of it, by induction on the fuel. -/
theorem refuelled (host : Host) (fuel : Nat) : Refuelled host fuel := by
  induction fuel with
  | zero => constructor <;> intros <;> exact .outOfFuel _
  | succ fuel ih =>
    exact ⟨ih.eval_succ, ih.evalAll_succ, ih.evalFields_succ, ih.evalPath_succ, fun block => .inScope _ (ih.execAll block.stmts),
      ih.execAll_succ, ih.exec_succ, ih.loop_succ⟩

/-- More fuel extends the run of a program. -/
theorem runWith_extends (host : Host) {fuel fuel' : Nat} (h : fuel ≤ fuel') (program : Program) :
    Extends (runWith host fuel program) (runWith host fuel' program) := by
  induction h with
  | refl => exact .refl _
  | step _ ih => exact ih.trans (.bind ((refuelled host _).execBlock program.body) fun _ => .refl _)

/-- A program has a result when it is run with some fuel: it is not the want of it. -/
def Evaluates (host : Host) (limits : Limits) (answers : List String) (program : Program) (result : Result) : Prop :=
  result.halt ≠ some .outOfFuel ∧ ∃ fuel, runFor host fuel limits answers program = result

/-- A result stays the same whatever further fuel there is. -/
theorem Evaluates.eventually {limits : Limits} {answers : List String} {program : Program} {result : Result}
    (h : Evaluates host limits answers program result) :
    ∃ enough, ∀ fuel, enough ≤ fuel → runFor host fuel limits answers program = result := by
  obtain ⟨hfuel, enough, rfl⟩ := h
  refine ⟨enough, fun fuel hle => ?_⟩
  rcases runWith_extends host hle program (.start limits answers) with hsame | ⟨after, hout⟩
  · unfold runFor
    rw [hsame]
  · refine absurd ?_ hfuel
    unfold runFor
    rw [hout]

/-- A program has at most one result. -/
theorem Evaluates.unique {limits : Limits} {answers : List String} {program : Program} {result result' : Result}
    (h : Evaluates host limits answers program result) (h' : Evaluates host limits answers program result') : result = result' := by
  obtain ⟨enough, hsame⟩ := h.eventually
  obtain ⟨enough', hsame'⟩ := h'.eventually
  exact (hsame (max enough enough') (by omega)).symm.trans (hsame' (max enough enough') (by omega))

/-- The run of a program that has a result ends with it, unless it runs out of fuel. -/
theorem Evaluates.run {limits : Limits} {answers : List String} {program : Program} {result : Result}
    (h : Evaluates host limits answers program result) :
    Machine.run host limits answers program = result ∨ (Machine.run host limits answers program).halt = some .outOfFuel := by
  obtain ⟨hfuel, fuel, rfl⟩ := h
  rw [run_eq_runFor]
  rcases Nat.le_total fuel ampleFuel with hle | hle
  · rcases runWith_extends host hle program (.start limits answers) with hsame | ⟨after, hout⟩
    · unfold runFor
      rw [hsame]
      exact .inl rfl
    · refine absurd ?_ hfuel
      unfold runFor
      rw [hout]
  · rcases runWith_extends host hle program (.start limits answers) with hsame | ⟨after, hout⟩
    · unfold runFor
      rw [hsame]
      exact .inl rfl
    · unfold runFor
      rw [hout]
      exact .inr rfl

end HostScript.Machine
