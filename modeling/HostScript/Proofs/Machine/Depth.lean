import Mathlib
import HostScript.Program.Resolve
import HostScript.Proofs.Machine.Exports
import HostScript.Proofs.Machine.Termination

/-!
# The depth of calls

The budget counts the calls that are open. The count is what it says: at every point of a run it is the number of function bodies that are
being executed there, it is the same again when the part has ended, also by a fault, and it is never greater than allowed. A part fails
with the depth limit only because a part that it starts fails with it (`starts_follows`), so the fault comes from a call that has evaluated
its arguments while as many bodies are being executed as may be, and every such call raises it (`depth_balanced`).
-/

namespace HostScript.Machine

open Program (Expression Statement Block Place PathSegment Function)

variable {host : Host} {fuel : Nat} {m : State}

/-! ## The bodies that are being executed -/

/-- The body that the points started by a task are executed in, if it is another one. -/
def Task.opens : Task → List Function
  | .enter _ f _ => [f]
  | _ => []

/-- A point of the run of a part, with the functions whose bodies are being executed at it, innermost first. -/
inductive Executing (host : Host) : Point → Point → List Function → Prop
  | start (p : Point) : Executing host p p []
  | later {p q r : Point} {active : List Function} (h : Executing host p q active) (hr : r ∈ q.starts host) :
    Executing host p r (q.task.opens ++ active)

/-- What is being executed has been reached. -/
theorem Executing.reached {p q : Point} {active : List Function} (h : Executing host p q active) : Reached host p q := by
  induction h with
  | start => exact .start _
  | later _ hr ih => exact .later ih hr

/-- Whatever is reached is executed inside of some active functions. -/
theorem Reached.executing {p q : Point} (h : Reached host p q) : ∃ active, Executing host p q active := by
  induction h with
  | start => exact ⟨[], .start _⟩
  | later _ hr ih =>
    obtain ⟨active, h⟩ := ih
    exact ⟨_, .later h hr⟩

/-- The limits are the same, and as many calls are open. -/
def SameDepth (m m' : State) : Prop := m'.budget.limits = m.budget.limits ∧ m'.budget.depth = m.budget.depth

/-- A call closes itself, and nothing else changes the number of open calls. -/
theorem sameDepth : Kept SameDepth where
  refl _ := ⟨rfl, rfl⟩
  trans h h' := ⟨h'.1.trans h.1, h'.2.trans h.2⟩
  scopes _ _ := ⟨rfl, rfl⟩
  exchanged _ _ _ := ⟨rfl, rfl⟩
  assigned _ _ _ := ⟨rfl, rfl⟩
  stepped m elapsed := by
    obtain ⟨hlimits, hdepth, -⟩ := budget_step_counts m.budget elapsed
    exact ⟨hlimits, hdepth⟩
  call {_ _ m after} _ h := by
    have hdepth : after.budget.depth = m.budget.depth + 1 := h.2
    refine ⟨h.1, ?_⟩
    change after.budget.depth - 1 = m.budget.depth
    rw [hdepth, Nat.add_sub_cancel]

/-- What a point starts has one more call open if the point enters the body of a function, and otherwise as many as it. -/
theorem starts_depth {p q : Point} (hq : q ∈ p.starts host) :
    q.state.budget.limits = p.state.budget.limits ∧ q.state.budget.depth = p.task.opens.length + p.state.budget.depth ∧
      (p.task.opens ≠ [] → p.state.budget.depth < p.state.budget.limits.maxCallDepth) := by
  obtain ⟨fuel, task, m⟩ := p
  cases task with
  | enter name f args =>
    rw [starts_enter] at hq
    split at hq
    · nomatch hq
    · rename_i hallowed
      obtain rfl := List.mem_singleton.mp hq
      exact ⟨rfl, Nat.add_comm _ _, fun _ => Nat.lt_of_not_le hallowed⟩
  | _ =>
    obtain ⟨hlimits, hdepth⟩ := (starts_started sameDepth (by nofun) q hq).state
    exact ⟨hlimits, hdepth.trans (Nat.zero_add _).symm, fun hopens => absurd rfl hopens⟩

/-- The number of open calls at a point of a run, and how it relates to the call that the point may be. -/
structure Point.Balanced (host : Host) (limits : Limits) (active : List Function) (p : Point) : Prop where
  limited : p.state.budget.limits = limits
  /-- The number of open calls is that of the bodies being executed, when the part is started and when it has ended in any way. -/
  before : p.state.budget.depth = active.length
  after : (p.after host).budget.depth = active.length
  ceiling : active.length ≤ limits.maxCallDepth
  /-- A body is not started when as many are being executed as may be. The call fails, and changes nothing. -/
  refused : ∀ {name f args}, p.task = .enter name f args → active.length = limits.maxCallDepth →
    inCall name (callFrame f args) (execAll host p.fuel f.body.stmts) p.state =
      .error (.fault (.limit (.callDepth limits.maxCallDepth))) p.state
  /-- Otherwise it is executed with one more call open. There is one when it has ended, so that closing it takes exactly one away. -/
  entered : ∀ {name f args}, p.task = .enter name f args → active.length < limits.maxCallDepth →
    ∃ ended hidden, ended = leaves (execAll host p.fuel f.body.stmts (p.state.called name (callFrame f args))) ∧
      ended.budget.depth = active.length + 1 ∧ ended.budget.leaveCall.depth + 1 = ended.budget.depth ∧
      p.after host = ended.returned hidden

/-- The depth is balanced where it is the number of active functions and below the limit. -/
theorem balanced {limits : Limits} {active : List Function} {p : Point} (hlimits : p.state.budget.limits = limits)
    (hdepth : p.state.budget.depth = active.length) (hceiling : active.length ≤ limits.maxCallDepth) : p.Balanced host limits active where
  limited := hlimits
  before := hdepth
  after := (sameDepth.after p).2.trans hdepth
  ceiling := hceiling
  refused {name f args} _ hfull := by
    rw [inCall_apply, if_pos (by rw [hlimits, hdepth, hfull]), hlimits]
  entered {name f args} htask hroom := by
    obtain ⟨fuel, task, m⟩ := p
    obtain rfl := htask
    have hended := ((sameDepth.everywhere host fuel).execAll f.body.stmts (m.called name (callFrame f args))).2
    have hcount : (leaves (execAll host fuel f.body.stmts (m.called name (callFrame f args)))).budget.depth = active.length + 1 :=
      hended.trans (congrArg (· + 1) hdepth)
    refine ⟨_, m.scopes.take (scopeDepth name m.scopes), rfl, hcount, ?_, ?_⟩
    · change _ - 1 + 1 = _
      rw [hcount, Nat.add_sub_cancel]
    · have hopen : ¬ m.budget.limits.maxCallDepth ≤ m.budget.depth := by
        rw [hlimits, hdepth]
        exact Nat.not_le_of_lt hroom
      change leaves (inCall name (callFrame f args) (execAll host fuel f.body.stmts) m) = _
      rw [inCall_apply, if_neg hopen, leaves_leaving]

/-- At every point of a run, the number of open calls is the number of bodies that are being executed. -/
theorem executing_balanced {limits : Limits} {answers : List String} {task : Task} {p : Point} {active : List Function}
    (hp : Executing host ⟨fuel, task, .start limits answers⟩ p active) : p.Balanced host limits active := by
  induction hp with
  | start => exact balanced rfl rfl (Nat.zero_le _)
  | later h hr ih =>
    obtain ⟨hlimits, hdepth, hopens⟩ := starts_depth hr
    refine balanced (hlimits.trans ih.limited) ?_ ?_
    · rw [hdepth, ih.before, List.length_append]
    · have hceiling := ih.ceiling
      rename_i q _ _
      rw [ih.limited, ih.before] at hopens
      obtain ⟨fuel, task, m⟩ := q
      cases task with
      | enter name f args => exact hopens (List.cons_ne_nil _ _)
      | _ => exact hceiling

/-! ## Where the depth limit is exceeded -/

section

variable {α β : Type} {n : Nat}

/-- A part of a run fails because of the limit `n` on open calls. -/
def Exceeds (n : Nat) (r : EStateM.Result Halt State α) : Prop := ∃ after, r = .error (.fault (.limit (.callDepth n))) after

/-- A part of a run that does not open calls. -/
def Spares (r : Run α) : Prop := ∀ n m, ¬ Exceeds n (r m)

/-- A sequence exceeds the depth in its first part, or in the second one behind it. -/
theorem exceeds_bind {r : Run α} {f : α → Run β} :
    Exceeds n ((r >>= f) m) ↔ Exceeds n (r m) ∨ ∃ a after, r m = .ok a after ∧ Exceeds n (f a after) := by
  cases hrun : r m with
  | ok a after =>
    rw [bind_ok hrun]
    constructor
    · exact fun h => .inr ⟨a, after, rfl, h⟩
    · rintro (⟨_, h⟩ | ⟨a, after, h, hf⟩)
      · nomatch h
      · obtain ⟨rfl, rfl⟩ := EStateM.Result.ok.inj h
        exact hf
  | error halt after =>
    rw [bind_error hrun]
    constructor
    · rintro ⟨_, h⟩
      obtain ⟨rfl, rfl⟩ := EStateM.Result.error.inj h
      exact .inl ⟨_, rfl⟩
    · rintro (⟨_, h⟩ | ⟨_, _, h, _⟩)
      · obtain ⟨rfl, rfl⟩ := EStateM.Result.error.inj h
        exact ⟨_, rfl⟩
      · nomatch h

/-- Leaving a scope or a call does not exceed the depth. -/
theorem exceeds_leaving (f : State → State) {r : EStateM.Result Halt State α} : Exceeds n (leaving f r) ↔ Exceeds n r := by
  cases r with
  | ok a after => exact iff_of_false (fun ⟨_, h⟩ => nomatch h) (fun ⟨_, h⟩ => nomatch h)
  | error halt after =>
    constructor
    · rintro ⟨_, h⟩
      obtain ⟨rfl, -⟩ := EStateM.Result.error.inj h
      exact ⟨_, rfl⟩
    · rintro ⟨_, h⟩
      obtain ⟨rfl, -⟩ := EStateM.Result.error.inj h
      exact ⟨_, rfl⟩

namespace Spares

/-- A result without a run spares the depth. -/
theorem pure (a : α) : Spares (pure a : Run α) := fun _ _ ⟨_, h⟩ => nomatch h

/-- A sequence spares the depth if both of its parts do. -/
theorem bind {r : Run α} {f : α → Run β} (hr : Spares r) (hf : ∀ a, Spares (f a)) : Spares (r >>= f) := by
  intro n m h
  rcases exceeds_bind.mp h with h | ⟨a, after, -, h⟩
  · exact hr n m h
  · exact hf a n after h

theorem outOfFuel : Spares (throw Halt.outOfFuel : Run α) := fun _ _ ⟨_, h⟩ => nomatch h

theorem get : Spares (get : Run State) := fun _ _ ⟨_, h⟩ => nomatch h

/-- A failure that is located spares the depth. -/
theorem failAt (span : Span) (problem : Problem) : Spares (failAt span problem : Run α) := fun _ _ ⟨_, h⟩ => nomatch h

/-- Nothing goes on after a failure. -/
theorem failAt_bind (span : Span) (problem : Problem) (f : α → Run β) : Spares (Machine.failAt span problem >>= f) :=
  fun _ _ ⟨_, h⟩ => nomatch h

/-- A primitive spares the depth. -/
theorem locate {ε : Type} (span : Span) (wrap : ε → Problem) (r : Except ε α) : Spares (locate span wrap r) := by
  cases r with
  | ok a => exact .pure a
  | error e => exact .failAt span _

/-- Recording an event spares the depth. -/
theorem record (event : Event) : Spares (record event) := fun _ _ ⟨_, h⟩ => nomatch h

/-- Binding a name spares the depth. -/
theorem bindName (name : String) (slot : Slot) : Spares (Machine.bind name slot) := by
  rintro n m ⟨_, h⟩
  rw [bindName_apply] at h
  nomatch h

/-- Asking spares the depth. -/
theorem ask (host : Host) (span : Span) (prompt : String) : Spares (ask host span prompt) := by
  rintro n m ⟨_, h⟩
  rw [ask_apply] at h
  split at h <;> nomatch h

/-- A step may fail, but because of the other limits. -/
theorem step (host : Host) : Spares (step host) := by
  rintro n m ⟨_, h⟩
  rw [step_apply] at h
  generalize hstep : m.budget.step (host.clock (m.budget.steps + 1)) = stepped at h
  obtain ⟨budget, _ | fault⟩ := stepped
  · nomatch h
  · obtain ⟨hfault, -⟩ := EStateM.Result.error.inj h
    obtain rfl := Fault.limit.inj (Halt.fault.inj hfault)
    unfold Budget.step at hstep
    dsimp only at hstep
    repeat' split at hstep
    all_goals nomatch (Prod.mk.inj hstep).2

/-- Reading a variable spares the depth. -/
theorem readVariable (span : Span) (name : String) : Spares (readVariable span name) := by
  rintro n m ⟨_, h⟩
  rw [readVariable_apply] at h
  split at h <;> nomatch h

/-- Reading a function spares the depth. -/
theorem readFunction (span : Span) (name : String) : Spares (readFunction span name) := by
  rintro n m ⟨_, h⟩
  rw [readFunction_apply] at h
  split at h <;> nomatch h

/-- Assigning a variable spares the depth. -/
theorem assignVariable (span : Span) (name : String) (path : List Value) (v : Value) : Spares (assignVariable span name path v) := by
  rintro n m ⟨_, h⟩
  rw [assignVariable_apply] at h
  split at h
  · dsimp only at h
    split at h <;> nomatch h
  all_goals nomatch h

/-- Assigning to the exports spares the depth. -/
theorem assignExports (span : Span) (path : List Value) (v : Value) : Spares (assignExports span path v) := by
  rintro n m ⟨_, h⟩
  rw [assignExports_apply] at h
  split at h <;> nomatch h

end Spares

/-- A point fails because of the limit `n` on open calls. -/
def Point.Exceeds (host : Host) (n : Nat) (p : Point) : Prop :=
  match p.task with
  | .eval e => Machine.Exceeds n (eval host p.fuel e p.state)
  | .evalAll es => Machine.Exceeds n (evalAll host p.fuel es p.state)
  | .evalFields table fields => Machine.Exceeds n (evalFields host p.fuel table fields p.state)
  | .evalPath path => Machine.Exceeds n (evalPath host p.fuel path p.state)
  | .execBlock block => Machine.Exceeds n (execBlock host p.fuel block p.state)
  | .execAll stmts => Machine.Exceeds n (execAll host p.fuel stmts p.state)
  | .exec s => Machine.Exceeds n (exec host p.fuel s p.state)
  | .loop cond body => Machine.Exceeds n (loop host p.fuel cond body p.state)
  | .assign span name keys v => Machine.Exceeds n (assignVariable span name keys v p.state)
  | .enter name f args => Machine.Exceeds n (inCall name (callFrame f args) (execAll host p.fuel f.body.stmts) p.state)
  | .apply _ _ => False

/-- A part exceeds the depth limit exactly if one of some points does. -/
def Follows (host : Host) (n : Nat) (r : EStateM.Result Halt State α) (points : List Point) : Prop :=
  Exceeds n r ↔ ∃ q ∈ points, q.Exceeds host n

namespace Follows

variable {p : Point} {r : Run α} {f : α → Run β}

/-- What spares the depth follows from no points at all. -/
theorem quiet (h : Spares r) (m : State) : Follows host n (r m) [] :=
  ⟨fun hr => absurd hr (h n m), fun ⟨_, hq, _⟩ => nomatch hq⟩

/-- What exceeds the depth with one point follows from it. -/
theorem only {r : EStateM.Result Halt State α} (h : Exceeds n r ↔ p.Exceeds host n) : Follows host n r [p] :=
  h.trans (by simp only [List.mem_singleton, exists_eq_left])

/-- What goes on after a part exceeds the depth if and only if one of the points behind the part does. -/
theorem behind {points : α → State → List Point} (r : EStateM.Result Halt State α)
    (hf : ∀ a after, r = .ok a after → Follows host n (f a after) (points a after)) :
    (∃ a after, r = .ok a after ∧ Exceeds n (f a after)) ↔ ∃ q ∈ andThen r points, q.Exceeds host n := by
  cases r with
  | ok a after =>
    refine Iff.trans ?_ (hf a after rfl)
    constructor
    · rintro ⟨_, _, h, hexceeds⟩
      obtain ⟨rfl, rfl⟩ := EStateM.Result.ok.inj h
      exact hexceeds
    · exact fun h => ⟨a, after, rfl, h⟩
  | error halt after => exact iff_of_false (fun ⟨_, _, h, _⟩ => nomatch h) (fun ⟨_, hq, _⟩ => nomatch hq)

/-- What goes on after a part that does not exceed the limit. -/
theorem skip {points : α → State → List Point} (hr : Spares r)
    (hf : ∀ a after, r m = .ok a after → Follows host n (f a after) (points a after)) :
    Follows host n ((r >>= f) m) (andThen (r m) points) := by
  unfold Follows
  rw [exceeds_bind, or_iff_right (hr n m)]
  exact behind (r m) hf

/-- What goes on after a part that is started as a point. -/
theorem cons {points : α → State → List Point} (hr : Exceeds n (r m) ↔ p.Exceeds host n)
    (hf : ∀ a after, r m = .ok a after → Follows host n (f a after) (points a after)) :
    Follows host n ((r >>= f) m) (p :: andThen (r m) points) := by
  unfold Follows
  rw [exceeds_bind, List.exists_mem_cons_iff, hr]
  exact or_congr_right (behind (r m) hf)

/-- A part that does its work as a point and then does not exceed the limit. -/
theorem last (hr : Exceeds n (r m) ↔ p.Exceeds host n) (hf : ∀ a, Spares (f a)) : Follows host n ((r >>= f) m) [p] := by
  unfold Follows
  simp only [exceeds_bind, List.mem_singleton, exists_eq_left, ← hr]
  exact or_iff_left fun ⟨a, after, _, h⟩ => hf a n after h

end Follows

/-- Evaluating an expression exceeds the depth if and only if one of the points that it starts does. -/
theorem evalStarts_follows (e : Expression) : Follows host n (eval host (fuel + 1) e m) (Point.evalStarts host fuel e m) := by
  cases e with
  | const v => rw [eval]; exact .quiet (.pure v) m
  | local_ span name => rw [eval]; exact .quiet (.readVariable span name) m
  | exports => rw [eval]; exact .quiet (.bind .get fun _ => .pure _) m
  | array items => rw [eval]; exact .last .rfl fun _ => .pure _
  | object fields => rw [eval]; exact .last .rfl fun _ => .pure _
  | unary span op operand => rw [eval]; exact .last .rfl fun _ => .locate _ _ _
  | arith span op left right =>
    rw [eval]
    exact .cons .rfl fun _ _ _ => .last .rfl fun _ => .locate _ _ _
  | compare span op left right =>
    rw [eval]
    exact .cons .rfl fun _ _ _ => .last .rfl fun _ => .locate _ _ _
  | index span base key =>
    rw [eval]
    exact .cons .rfl fun _ _ _ => .last .rfl fun _ => .locate _ _ _
  | logic op left right =>
    rw [eval]
    refine .cons .rfl fun v after _ => ?_
    rcases op with _ | _ <;> cases v.isTruthy
    · exact .quiet (.pure _) after
    · exact .last .rfl fun _ => .pure _
    · exact .last .rfl fun _ => .pure _
    · exact .quiet (.pure _) after
  | member span base field => rw [eval]; exact .last .rfl fun _ => .locate _ _ _
  | call span name args =>
    rw [eval]
    refine .skip (.readFunction span name) fun f before _ => ?_
    split
    · exact .quiet (.failAt_bind _ _ _) before
    · refine .cons .rfl fun vs after _ => .last .rfl fun flow => ?_
      cases flow <;> exact .pure _
  | builtin span function args =>
    rw [eval]
    exact .cons .rfl fun vs after _ => .only (iff_of_false (Spares.locate _ _ _ _ _) id)
  | output span value => rw [eval]; exact .last .rfl fun _ => .bind (.record _) fun _ => .pure _
  | input span prompt => rw [eval]; exact .last .rfl fun _ => .bind (.ask _ _ _) fun _ => .pure _

/-- Executing a statement exceeds the depth if and only if one of the points that it starts does. -/
theorem execStarts_follows (s : Statement) :
    Follows host n (exec host (fuel + 1) s m) (andThen (step host m) fun _ after => Point.execStarts host fuel s after) := by
  unfold exec
  refine .skip (.step host) fun _ m _ => ?_
  cases s with
  | let_ name value => exact .last .rfl fun _ => .bind (.bindName _ _) fun _ => .pure _
  | assign target value =>
    cases target with
    | local_ span name path =>
      refine .cons .rfl fun v after _ => .cons .rfl fun keys after _ => ?_
      exact .last .rfl fun _ => .pure _
    | exports span path =>
      exact .cons .rfl fun v after _ => .last .rfl fun _ => .bind (.assignExports _ _ _) fun _ => .pure _
  | expr e => exact .last .rfl fun _ => .pure _
  | if_ cond body otherwise =>
    refine .cons .rfl fun v after _ => ?_
    cases v.isTruthy with
    | true => exact .only .rfl
    | false =>
      cases otherwise with
      | none => exact .quiet (.pure _) after
      | some block => exact .only .rfl
  | while_ span cond body => exact .only .rfl
  | return_ value =>
    cases value with
    | none => exact .quiet (.pure _) m
    | some e => exact .last .rfl fun _ => .pure _
  | break_ => exact .quiet (.pure _) m
  | continue_ => exact .quiet (.pure _) m
  | block body => exact .only .rfl

/-- A loop exceeds the depth if and only if one of the points that it starts does. -/
theorem loopStarts_follows (cond : Expression) (body : Block) :
    Follows host n (loop host (fuel + 1) cond body m) (Point.loopStarts host fuel cond body m) := by
  rw [loop]
  refine .cons .rfl fun v after _ => ?_
  cases v.isTruthy with
  | false => exact .quiet (.pure _) after
  | true =>
    refine .cons .rfl fun flow after _ => ?_
    cases flow with
    | break_ => exact .quiet (.pure _) after
    | return_ v => exact .quiet (.pure _) after
    | normal => exact .skip (.step host) fun _ after _ => .only .rfl
    | continue_ => exact .skip (.step host) fun _ after _ => .only .rfl

/-- A point is about to start a body while as many are open as may be. -/
def Point.Refused (n : Nat) (p : Point) : Prop :=
  (∃ name f args, p.task = .enter name f args) ∧ p.state.budget.limits.maxCallDepth ≤ p.state.budget.depth ∧
    n = p.state.budget.limits.maxCallDepth

/-- Only the entry into a body is refused. -/
theorem not_refused {task : Task} (hplain : task.opens = []) : ¬ Point.Refused n ⟨fuel, task, m⟩ := by
  rintro ⟨⟨name, f, args, rfl⟩, -⟩
  cases hplain

/-- A point exceeds the depth limit exactly if it is refused itself or something that it starts exceeds the limit. -/
theorem starts_follows (p : Point) : p.Exceeds host n ↔ p.Refused n ∨ ∃ q ∈ p.starts host, q.Exceeds host n := by
  obtain ⟨fuel, task, m⟩ := p
  -- every task but the entry into a body only passes on what happens in the parts that it starts
  have plain {α : Type} {r : EStateM.Result Halt State α} (hplain : task.opens = [])
      (hexceeds : Point.Exceeds host n ⟨fuel, task, m⟩ ↔ Exceeds n r) (h : Follows host n r (Point.starts host ⟨fuel, task, m⟩)) :
      Point.Exceeds host n ⟨fuel, task, m⟩ ↔
        Point.Refused n ⟨fuel, task, m⟩ ∨ ∃ q ∈ Point.starts host ⟨fuel, task, m⟩, q.Exceeds host n := by
    rw [or_iff_right (not_refused hplain)]
    exact hexceeds.trans h
  cases task with
  | enter name f args =>
    rw [starts_enter]
    change Exceeds n (inCall name (callFrame f args) (execAll host fuel f.body.stmts) m) ↔ _
    rw [inCall_apply]
    by_cases hfull : m.budget.limits.maxCallDepth ≤ m.budget.depth
    · rw [if_pos hfull, if_pos hfull]
      constructor
      · rintro ⟨_, h⟩
        obtain ⟨h, -⟩ := EStateM.Result.error.inj h
        exact .inl ⟨⟨_, _, _, rfl⟩, hfull, (LimitFault.callDepth.inj (Fault.limit.inj (Halt.fault.inj h))).symm⟩
      · rintro (⟨-, -, rfl⟩ | ⟨_, hq, _⟩)
        · exact ⟨_, rfl⟩
        · exact absurd hq List.not_mem_nil
    · rw [if_neg hfull, if_neg hfull, exceeds_leaving, or_iff_right fun h => hfull h.2.1]
      simp only [List.mem_singleton, exists_eq_left]
      rfl
  | apply function args =>
    refine iff_of_false id ?_
    rintro (hrefused | ⟨_, hq, _⟩)
    · exact not_refused rfl hrefused
    · cases fuel <;> exact absurd hq List.not_mem_nil
  | assign span name keys v =>
    refine plain rfl .rfl ?_
    cases fuel <;> exact .quiet (.assignVariable span name keys v) m
  | eval e =>
    refine plain rfl .rfl ?_
    cases fuel with
    | zero => unfold eval; exact .quiet .outOfFuel m
    | succ fuel => exact evalStarts_follows e
  | evalAll es =>
    refine plain rfl .rfl ?_
    cases fuel with
    | zero => exact .quiet .outOfFuel m
    | succ fuel =>
      cases es with
      | nil => exact .quiet (.pure _) m
      | cons e rest => exact .cons .rfl fun _ _ _ => .last .rfl fun _ => .pure _
  | evalFields table fields =>
    refine plain rfl .rfl ?_
    cases fuel with
    | zero => exact .quiet .outOfFuel m
    | succ fuel =>
      rcases fields with _ | ⟨⟨key, value⟩, rest⟩
      · exact .quiet (.pure _) m
      · exact .cons .rfl fun _ _ _ => .cons .rfl fun _ _ _ => .only .rfl
  | evalPath path =>
    refine plain rfl .rfl ?_
    cases fuel with
    | zero => exact .quiet .outOfFuel m
    | succ fuel =>
      rcases path with _ | ⟨_ | key, rest⟩
      · exact .quiet (.pure _) m
      · exact .last .rfl fun _ => .pure _
      · exact .cons .rfl fun _ _ _ => .last .rfl fun _ => .pure _
  | execBlock block =>
    cases fuel with
    | zero => exact plain rfl .rfl (.quiet .outOfFuel m)
    | succ fuel =>
      refine plain rfl ?_ (.only .rfl)
      change Exceeds n (inScope (bindBlock block []) (execAll host fuel block.stmts) m) ↔ _
      rw [inScope_apply, exceeds_leaving]
  | execAll stmts =>
    refine plain rfl .rfl ?_
    cases fuel with
    | zero => exact .quiet .outOfFuel m
    | succ fuel =>
      cases stmts with
      | nil => exact .quiet (.pure _) m
      | cons s rest =>
        refine .cons .rfl fun flow after _ => ?_
        cases flow with
        | normal => exact .only .rfl
        | _ => exact .quiet (.pure _) after
  | exec s =>
    refine plain rfl .rfl ?_
    cases fuel with
    | zero => unfold exec; exact .quiet .outOfFuel m
    | succ fuel => exact execStarts_follows s
  | loop cond body =>
    refine plain rfl .rfl ?_
    cases fuel with
    | zero => exact .quiet .outOfFuel m
    | succ fuel => exact loopStarts_follows cond body

end

/-! ## Runs -/

/-- How much a point may still do. To enter a body takes no fuel by itself. -/
def Point.weight (p : Point) : Nat := 2 * p.fuel + p.task.opens.length

/-- The points that a point starts weigh less. -/
theorem starts_weight {p q : Point} (hq : q ∈ p.starts host) : q.weight < p.weight := by
  have hopens : q.task.opens.length ≤ 1 := by cases q.task <;> simp [Task.opens]
  obtain ⟨fuel, task, m⟩ := p
  cases task with
  | enter name f args =>
    rw [starts_enter] at hq
    split at hq
    · nomatch hq
    · obtain rfl := List.mem_singleton.mp hq
      exact Nat.lt_succ_self _
  | _ =>
    have hfuel : q.fuel < fuel := (starts_started sameDepth (by nofun) q hq).fuel
    change 2 * q.fuel + q.task.opens.length < 2 * fuel + 0
    omega

/-- What is reached from a point that is started is reached. -/
theorem Reached.head {p q r : Point} (hq : q ∈ p.starts host) (h : Reached host q r) : Reached host p r := by
  induction h with
  | start => exact .later (.start p) hq
  | later _ hr ih => exact .later ih hr

/-- A point exceeds the depth limit exactly if its run comes to a call that is refused. -/
theorem exceeds_iff {n : Nat} (p : Point) : p.Exceeds host n ↔ ∃ q, Reached host p q ∧ q.Refused n := by
  constructor
  · intro h
    rcases (starts_follows p).mp h with hrefused | ⟨q, hq, hexceeds⟩
    · exact ⟨p, .start p, hrefused⟩
    · obtain ⟨r, hr, hrefused⟩ := (exceeds_iff q).mp hexceeds
      exact ⟨r, hr.head hq, hrefused⟩
  · rintro ⟨q, hq, hrefused⟩
    have hexceeds : q.Exceeds host n := (starts_follows q).mpr (.inl hrefused)
    clear hrefused
    induction hq with
    | start => exact hexceeds
    | later _ hr ih => exact ih ((starts_follows _).mpr (.inr ⟨_, hr, hexceeds⟩))
termination_by p.weight
decreasing_by exact starts_weight hq

/-- A call that has evaluated its arguments goes on with the entry into its body. -/
theorem calls_starts {p : Point} {name : String} {f : Function} {vs : List Value} (h : p.Calls host name f vs m) :
    p.task.opens = [] ∧ ∃ fuel, ⟨fuel, .enter name f vs, m⟩ ∈ p.starts host := by
  obtain ⟨fuel, span, args, hp, hf, harity, hvs⟩ := h
  rw [hp]
  refine ⟨rfl, fuel, ?_⟩
  change _ ∈ andThen (readFunction span name p.state) _
  simp only [hf, andThen, harity, hvs, bne_self_eq_false, Bool.false_eq_true, if_false]
  exact List.mem_cons_of_mem _ (List.mem_singleton_self _)

/-- The entry into a body is started by a call that has evaluated its arguments. -/
theorem calls_of_starts {p q : Point} {name : String} {f : Function} {vs : List Value} (hq : q ∈ p.starts host)
    (htask : q.task = .enter name f vs) : p.Calls host name f vs q.state := by
  obtain ⟨fuel, task, m⟩ := p
  cases task with
  | enter name f args =>
    rw [starts_enter] at hq
    split at hq
    · nomatch hq
    · obtain rfl := List.mem_singleton.mp hq
      nomatch htask
  | _ => exact (starts_started sameDepth (by nofun) q hq).enters htask

/-- A run fails because of the depth limit exactly if its outermost block does. -/
theorem runFor_exceeds {n : Nat} (host : Host) (fuel : Nat) (limits : Limits) (answers : List String) (program : Program) :
    (runFor host fuel limits answers program).halt = some (.fault (.limit (.callDepth n))) ↔
      Point.Exceeds host n ⟨fuel, .execBlock program.body, .start limits answers⟩ := by
  have hblock : Exceeds n (runWith host fuel program (.start limits answers)) ↔
      Point.Exceeds host n ⟨fuel, .execBlock program.body, .start limits answers⟩ := by
    unfold runWith
    refine exceeds_bind.trans (or_iff_left fun ⟨flow, after, _, _, h⟩ => ?_)
    cases flow <;> nomatch h
  rw [← hblock]
  unfold runFor
  cases runWith host fuel program (.start limits answers) with
  | ok a after => exact iff_of_false nofun fun ⟨_, h⟩ => nomatch h
  | error halt after =>
    constructor
    · intro h
      obtain rfl := Option.some.inj h
      exact ⟨after, rfl⟩
    · rintro ⟨_, h⟩
      obtain ⟨rfl, -⟩ := EStateM.Result.error.inj h
      rfl

/-- At every point of a run, the number of open calls is the number of bodies that are being executed, before and after. The run fails
because of the depth limit exactly if it comes to a call that has evaluated its arguments and whose body would be one more than allowed. -/
theorem depth_balanced {program : Program} {limits : Limits} {answers : List String} {p : Point} {active : List Function}
    (hp : Executing host ⟨fuel, .execBlock program.body, .start limits answers⟩ p active) :
    p.Balanced host limits active ∧
      ∀ n, (runFor host fuel limits answers program).halt = some (.fault (.limit (.callDepth n))) ↔
        n = limits.maxCallDepth ∧ ∃ q active name f vs m,
          Executing host ⟨fuel, .execBlock program.body, .start limits answers⟩ q active ∧ q.Calls host name f vs m ∧
            active.length = limits.maxCallDepth := by
  refine ⟨executing_balanced hp, fun n => ?_⟩
  rw [runFor_exceeds, exceeds_iff]
  constructor
  · rintro ⟨q, hq, ⟨name, f, vs, htask⟩, hfull, rfl⟩
    cases hq with
    | start => nomatch htask
    | later hr hstarts =>
      obtain ⟨active, hr⟩ := hr.executing
      have hcalls := calls_of_starts hstarts htask
      obtain ⟨hopens, -⟩ := calls_starts hcalls
      have hbalanced := executing_balanced (.later hr hstarts)
      rw [hopens, List.nil_append] at hbalanced
      rw [hbalanced.limited, hbalanced.before] at hfull
      exact ⟨congrArg _ hbalanced.limited, _, active, name, f, vs, _, hr, hcalls, Nat.le_antisymm hbalanced.ceiling hfull⟩
  · rintro ⟨rfl, q, active, name, f, vs, m, hq, hcalls, hfull⟩
    obtain ⟨hopens, fuel', hstarts⟩ := calls_starts hcalls
    have hbalanced := executing_balanced (hq.later hstarts)
    rw [hopens, List.nil_append] at hbalanced
    refine ⟨_, hq.reached.later hstarts, ⟨name, f, vs, rfl⟩, ?_, (congrArg _ hbalanced.limited).symm⟩
    rw [hbalanced.limited, hbalanced.before, hfull]

/-- A function that calls itself, and a call of it. -/
def selfCalling : Program :=
  ⟨none, .mk [] [.mk ⟨1, 1, 0, 18⟩ "f" [] (.mk [] [] [.expr (.call ⟨1, 15, 13, 16⟩ "f" [])])] [.expr (.call ⟨1, 20, 18, 21⟩ "f" [])]⟩

/-- With one open call allowed, the function calls itself once, and that call is balanced and refused. -/
theorem depth_balanced_recursive :
    Program.ofSource ⟨"case", "function f(){f();}f();"⟩ = .ok selfCalling ∧ ∀ (host : Host) (answers : List String),
      ∃ p active, Executing host ⟨9, .execBlock selfCalling.body, .start ⟨none, 1, none, 256⟩ answers⟩ p active ∧ active.length = 1 ∧
        p.Balanced host ⟨none, 1, none, 256⟩ active ∧
        (runFor host 9 ⟨none, 1, none, 256⟩ answers selfCalling).halt = some (.fault (.limit (.callDepth 1))) := by
  have hcompiles : Program.ofSource ⟨"case", "function f(){f();}f();"⟩ = .ok selfCalling := by
    unfold selfCalling
    cbv
  refine ⟨hcompiles, fun host answers => ?_⟩
  -- the outer call, the entry into its body, and the inner call
  have houter : Executing host _ _ _ := Executing.start ⟨9, .execBlock selfCalling.body, .start ⟨none, 1, none, 256⟩ answers⟩
    |>.later (List.mem_cons_self ..) |>.later (List.mem_cons_self ..) |>.later (List.mem_cons_self ..)
  have henter := houter.later (List.mem_cons_of_mem _ (List.mem_cons_self ..))
  have hinner := henter.later (List.mem_cons_self ..) |>.later (List.mem_cons_self ..) |>.later (List.mem_cons_self ..)
  obtain ⟨hbalanced, hhalt⟩ := depth_balanced hinner
  exact ⟨_, _, hinner, rfl, hbalanced, (hhalt 1).mpr ⟨rfl, _, _, _, _, _, _, hinner, ⟨_, _, _, rfl, rfl, rfl, rfl⟩, rfl⟩⟩

end HostScript.Machine
