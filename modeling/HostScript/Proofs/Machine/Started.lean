import Mathlib
import HostScript.Proofs.Machine.Closure
import HostScript.Proofs.Machine.Point

/-!
# What a part of a run starts

The parts that a part starts directly have less fuel and begin in a state that earlier parts have left. So a relation of states that every
part keeps holds between the state of a point and the states of the points that it starts (`starts_started`). Only a call starts the
entry into a body, and it has evaluated its arguments before.
-/

namespace HostScript.Machine

open Program (Expression Statement Block Place PathSegment Function)

variable {host : Host} {fuel : Nat} {R : State → State → Prop}

/-- A relation between the states before and after a change that all changes of state during a run keep. It does not depend on the
scopes and on what is exchanged with the host. -/
structure Kept (R : State → State → Prop) : Prop where
  refl (m : State) : R m m
  trans {m m' m'' : State} (h : R m m') (h' : R m' m'') : R m m''
  scopes (m : State) (scopes : List Scope) : R m { m with scopes }
  exchanged (m : State) (events : List Event) (answers : List String) : R m { m with events, answers }
  assigned (m : State) (path : List Value) (v : Value) : R m { m with exports := (assignedExports path v m.exports).1 }
  stepped (m : State) (elapsed : Nat) : R m { m with budget := (m.budget.step elapsed).1 }
  call {name : String} {frame : Scope} {m after : State} (hidden : List Scope) (h : R (m.called name frame) after) :
    R m (after.returned hidden)

/-- A part leaves a state that is related to the one in which it is started. -/
def Relates (R : State → State → Prop) (α : Type) (r : Run α) : Prop := ∀ m, R m (leaves (r m))

namespace Kept

/-- A part that changes nothing. -/
theorem of_inert (hR : Kept R) {α : Type} {r : Run α} (h : ∀ m, leaves (r m) = m) : Relates R α r := by
  intro m
  rw [h m]
  exact hR.refl m

/-- All parts of a run are made of the changes that keep the relation. -/
theorem parts (hR : Kept R) (host : Host) : Closed host (Relates R) where
  pure a := hR.of_inert fun _ => rfl
  bind {α β r f} hr hf := by
    intro m
    have hfirst := hr m
    cases hrun : r m with
    | ok a after =>
      rw [hrun] at hfirst
      rw [bind_ok hrun]
      exact hR.trans hfirst (hf a after)
    | error halt after =>
      rw [hrun] at hfirst
      rw [bind_error hrun]
      exact hfirst
  outOfFuel := hR.of_inert fun _ => rfl
  failAt span problem := hR.of_inert fun _ => rfl
  exports := hR.of_inert fun _ => rfl
  step := by
    intro m
    have hstep := hR.stepped m (host.clock (m.budget.steps + 1))
    rw [step_apply]
    generalize m.budget.step (host.clock (m.budget.steps + 1)) = stepped at hstep
    obtain ⟨budget, _ | fault⟩ := stepped <;> exact hstep
  output v := fun m => hR.exchanged m _ m.answers
  ask span prompt := by
    intro m
    rw [ask_apply]
    rcases m with ⟨scopes, exports, budget, events, _ | ⟨answer, rest⟩⟩ <;> exact hR.exchanged ⟨_, _, _, _, _⟩ _ _
  readVariable span name := by
    refine hR.of_inert fun m => ?_
    rw [readVariable_apply]
    rcases findSlot? name m.scopes with _ | _ | _ | _ <;> rfl
  readFunction span name := by
    refine hR.of_inert fun m => ?_
    rw [readFunction_apply]
    rcases findSlot? name m.scopes with _ | _ | _ | _ <;> rfl
  bindName name slot := by
    intro m
    rw [bindName_apply]
    exact hR.scopes m _
  assignVariable span name path v := by
    intro m
    rw [assignVariable_apply]
    rcases findSlot? name m.scopes with _ | _ | current | _
    · exact hR.refl m
    · exact hR.refl m
    · dsimp only
      split <;> exact hR.scopes m _
    · exact hR.refl m
  assignExports span path v := by
    intro m
    have hassigned := hR.assigned m path v
    rw [assignExports_apply]
    generalize assignedExports path v m.exports = assigned at hassigned
    obtain ⟨exports, _ | problem⟩ := assigned <;> exact hassigned
  inScope {α body} scope h := by
    intro m
    rw [inScope_apply, leaves_leaving]
    exact hR.trans (hR.scopes m _) (hR.trans (h _) (hR.scopes _ _))
  inCall {α body} name frame h := by
    intro m
    rw [inCall_apply]
    split
    · exact hR.refl m
    · rw [leaves_leaving]
      exact hR.call _ (h _)

theorem everywhere (hR : Kept R) (host : Host) (fuel : Nat) : Everywhere host (Relates R) fuel := (hR.parts host).everywhere fuel

end Kept

/-- At a point, a call has found its function and evaluated as many arguments as it takes. Its body is to be started in the given state. -/
def Point.Calls (host : Host) (p : Point) (name : String) (f : Function) (vs : List Value) (m : State) : Prop :=
  ∃ fuel span args, p = ⟨fuel + 1, .eval (.call span name args), p.state⟩ ∧ readFunction span name p.state = .ok f p.state ∧
    args.length = f.params.length ∧ evalAll host fuel args p.state = .ok vs m

/-- A point that another one may start. -/
structure Started (host : Host) (R : State → State → Prop) (p q : Point) : Prop where
  fuel : q.fuel < p.fuel
  state : R p.state q.state
  enters : ∀ {name f vs}, q.task = .enter name f vs → p.Calls host name f vs q.state

/-- Points that another one may start. -/
def AllStarted (host : Host) (R : State → State → Prop) (p : Point) (points : List Point) : Prop := ∀ q ∈ points, Started host R p q

namespace AllStarted

variable {p q : Point} {points : List Point} {task : Task} {m : State}

theorem nil : AllStarted host R p [] := List.forall_mem_nil _

theorem cons (hfuel : fuel < p.fuel) (hm : R p.state m) (hplain : ∀ name f vs, task ≠ .enter name f vs)
    (h : AllStarted host R p points) : AllStarted host R p (⟨fuel, task, m⟩ :: points) :=
  List.forall_mem_cons.mpr ⟨⟨hfuel, hm, fun hq => absurd hq (hplain _ _ _)⟩, h⟩

theorem single (hfuel : fuel < p.fuel) (hm : R p.state m) (hplain : ∀ name f vs, task ≠ .enter name f vs) :
    AllStarted host R p [⟨fuel, task, m⟩] := cons hfuel hm hplain nil

/-- What goes on after a part goes on in the state that it leaves. -/
theorem andThen {α : Type} {r : Run α} {f : α → State → List Point} (hR : Kept R) (hr : Relates R α r)
    (hm : R p.state m) (hf : ∀ a after, r m = .ok a after → R p.state after → AllStarted host R p (f a after)) :
    AllStarted host R p (Machine.andThen (r m) f) := by
  have hafter := hr m
  cases hrun : r m with
  | ok a after =>
    rw [hrun] at hafter
    exact hf a after hrun (hR.trans hm hafter)
  | error halt after => exact nil

end AllStarted

theorem readFunction_ok {span : Span} {name : String} {m after : State} {f : Function} (h : readFunction span name m = .ok f after) :
    after = m := by
  rw [readFunction_apply] at h
  split at h
  · exact (EStateM.Result.ok.inj h).2.symm
  all_goals nomatch h

section

variable (hR : Kept R) {m : State}
include hR

theorem evalStarts_started (e : Expression) : AllStarted host R ⟨fuel + 1, .eval e, m⟩ (Point.evalStarts host fuel e m) := by
  have hparts := hR.everywhere host fuel
  have hfuel : fuel < fuel + 1 := Nat.lt_succ_self fuel
  have hm : R m m := hR.refl m
  cases e with
  | const v => exact .nil
  | local_ span name => exact .nil
  | exports => exact .nil
  | array items => exact .single hfuel hm nofun
  | object fields => exact .single hfuel hm nofun
  | unary span op operand => exact .single hfuel hm nofun
  | arith span op left right =>
    exact .cons hfuel hm nofun (.andThen hR (hparts.eval left) hm fun _ _ _ h => .single hfuel h nofun)
  | compare span op left right =>
    exact .cons hfuel hm nofun (.andThen hR (hparts.eval left) hm fun _ _ _ h => .single hfuel h nofun)
  | index span base key =>
    exact .cons hfuel hm nofun (.andThen hR (hparts.eval base) hm fun _ _ _ h => .single hfuel h nofun)
  | logic op left right =>
    refine .cons hfuel hm nofun (.andThen hR (hparts.eval left) hm fun v after _ h => ?_)
    split
    · exact .nil
    · exact .nil
    · exact .single hfuel h nofun
  | member span base field => exact .single hfuel hm nofun
  | call span name args =>
    refine .andThen hR ((hR.parts host).readFunction span name) hm fun f before hf h => ?_
    obtain rfl := readFunction_ok hf
    split
    · exact .nil
    · rename_i harity
      refine .cons hfuel h nofun (.andThen hR (hparts.evalAll args) h fun vs after hvs h => ?_)
      refine List.forall_mem_singleton.mpr ⟨hfuel, h, fun hq => ?_⟩
      obtain ⟨rfl, rfl, rfl⟩ := Task.enter.inj hq
      exact ⟨fuel, span, args, rfl, hf, by simpa using harity, hvs⟩
  | builtin span function args =>
    exact .cons hfuel hm nofun (.andThen hR (hparts.evalAll args) hm fun _ _ _ h => .single hfuel h nofun)
  | output span value => exact .single hfuel hm nofun
  | input span prompt => exact .single hfuel hm nofun

theorem execStarts_started (s : Statement) {p : Point} (hfuel : fuel < p.fuel) (hm : R p.state m) :
    AllStarted host R p (Point.execStarts host fuel s m) := by
  have hparts := hR.everywhere host fuel
  cases s with
  | let_ name value => exact .single hfuel hm nofun
  | assign target value =>
    cases target with
    | local_ span name path =>
      exact .cons hfuel hm nofun (.andThen hR (hparts.eval value) hm fun _ _ _ h => .cons hfuel h nofun
        (.andThen hR (hparts.evalPath path) h fun _ _ _ h => .single hfuel h nofun))
    | exports span path =>
      exact .cons hfuel hm nofun (.andThen hR (hparts.eval value) hm fun _ _ _ h => .single hfuel h nofun)
  | expr e => exact .single hfuel hm nofun
  | if_ cond body otherwise =>
    refine .cons hfuel hm nofun (.andThen hR (hparts.eval cond) hm fun v after _ h => ?_)
    split
    · exact .single hfuel h nofun
    · intro q hq
      obtain ⟨block, -, rfl⟩ := List.mem_map.mp hq
      exact ⟨hfuel, h, nofun⟩
  | while_ span cond body => exact .single hfuel hm nofun
  | return_ value =>
    intro q hq
    obtain ⟨e, -, rfl⟩ := List.mem_map.mp hq
    exact ⟨hfuel, hm, nofun⟩
  | break_ => exact .nil
  | continue_ => exact .nil
  | block body => exact .single hfuel hm nofun

theorem loopStarts_started (cond : Expression) (body : Block) :
    AllStarted host R ⟨fuel + 1, .loop cond body, m⟩ (Point.loopStarts host fuel cond body m) := by
  have hparts := hR.everywhere host fuel
  have hfuel : fuel < fuel + 1 := Nat.lt_succ_self fuel
  have hm : R m m := hR.refl m
  refine .cons hfuel hm nofun (.andThen hR (hparts.eval cond) hm fun v after _ h => ?_)
  split
  · refine .cons hfuel h nofun (.andThen hR (hparts.execBlock body) h fun flow after _ h => ?_)
    have hnext : AllStarted host R ⟨fuel + 1, .loop cond body, m⟩
        (Machine.andThen (step host after) fun _ after => [⟨fuel, .loop cond body, after⟩]) :=
      .andThen hR (hR.parts host).step h fun _ _ _ h => .single hfuel h nofun
    cases flow with
    | break_ => exact .nil
    | return_ v => exact .nil
    | normal => exact hnext
    | continue_ => exact hnext
  · exact .nil

/-- What a point starts, unless it enters the body of a function. -/
theorem starts_started {task : Task} (hplain : ∀ name f args, task ≠ .enter name f args) :
    AllStarted host R ⟨fuel, task, m⟩ (Point.starts host ⟨fuel, task, m⟩) := by
  have hm : R m m := hR.refl m
  cases fuel with
  | zero => cases task <;> first | exact .nil | exact absurd rfl (hplain _ _ _)
  | succ fuel =>
    have hfuel : fuel < fuel + 1 := Nat.lt_succ_self fuel
    have hparts := hR.everywhere host fuel
    cases task with
    | enter name f args => exact absurd rfl (hplain _ _ _)
    | eval e => exact evalStarts_started hR e
    | evalAll es =>
      cases es with
      | nil => exact .nil
      | cons e rest => exact .cons hfuel hm nofun (.andThen hR (hparts.eval e) hm fun _ _ _ h => .single hfuel h nofun)
    | evalFields table fields =>
      rcases fields with _ | ⟨⟨key, value⟩, rest⟩
      · exact .nil
      · exact .cons hfuel hm nofun (.andThen hR (hparts.eval key) hm fun _ _ _ h => .cons hfuel h nofun
          (.andThen hR (hparts.eval value) h fun _ _ _ h => .single hfuel h nofun))
    | evalPath path =>
      rcases path with _ | ⟨_ | key, rest⟩
      · exact .nil
      · exact .single hfuel hm nofun
      · exact .cons hfuel hm nofun (.andThen hR (hparts.eval key) hm fun _ _ _ h => .single hfuel h nofun)
    | execBlock block => exact .single hfuel (hR.scopes m _) nofun
    | execAll stmts =>
      cases stmts with
      | nil => exact .nil
      | cons s rest =>
        refine .cons hfuel hm nofun (.andThen hR (hparts.exec s) hm fun flow after _ h => ?_)
        cases flow with
        | normal => exact .single hfuel h nofun
        | _ => exact .nil
    | exec s => exact .andThen hR (hR.parts host).step hm fun _ _ _ h => execStarts_started hR s hfuel h
    | loop cond body => exact loopStarts_started hR cond body
    | assign span name keys v => exact .nil
    | apply function args => exact .nil

end

/-- The entry into the body of a function starts the body in its frame, unless it is refused. -/
theorem starts_enter (fuel : Nat) (name : String) (f : Function) (args : List Value) (m : State) :
    Point.starts host ⟨fuel, .enter name f args, m⟩ = if m.budget.limits.maxCallDepth ≤ m.budget.depth then []
      else [⟨fuel, .execAll f.body.stmts, m.called name (callFrame f args)⟩] := by
  cases fuel <;> rfl

end HostScript.Machine
