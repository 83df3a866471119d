import Mathlib
import HostScript.Session
import HostScript.Proofs.Machine.Started

/-!
# The exports stay an object

The table of exports is an object when a run begins. A whole assignment puts an object in its place or is refused, and an assignment
inside it descends from its root, which stays what it is, also when the descent fails further on. Nothing else touches the table, so it
is an object in every state of a run (`exports_object`).
-/

namespace HostScript

namespace Value

/-- The value is an object. -/
def IsObject (v : Value) : Prop := ∃ table, v = .object table

theorem isObject_emptyObject : emptyObject.IsObject := ⟨.empty, rfl⟩

/-- What is assigned inside an object leaves an object, also when the descent fails. -/
theorem IsObject.modifyPath {v : Value} (h : v.IsObject) (change : Value → Value) (key : Value) (path : List Value) :
    (modifyPath change (key :: path) v).1.IsObject := by
  obtain ⟨table, rfl⟩ := h
  rw [Value.modifyPath]
  exact ⟨_, rfl⟩

end Value

namespace Machine

open Program (Expression Statement Block Place PathSegment Function)

variable {host : Host} {fuel : Nat} {m : State}

/-! ## One part -/

/-- Whatever is assigned to an object of exports, they are an object afterwards. -/
theorem isObject_assignedExports {exports : Value} (h : exports.IsObject) (path : List Value) (v : Value) :
    (assignedExports path v exports).1.IsObject := by
  cases path with
  | nil =>
    cases v with
    | object table => exact ⟨table, rfl⟩
    | _ => exact h
  | cons key path => exact h.modifyPath _ key path

/-- A value that is no object cannot become the exports, and the state is not changed. -/
theorem assignExports_refused {v : Value} (h : ¬ v.IsObject) (span : Span) (m : State) :
    assignExports span [] v m = .error (.fault (.problem span (.exportsType v.typeName))) m := by
  have hassigned : assignedExports [] v m.exports = (m.exports, some (.exportsType v.typeName)) := by
    cases v with
    | object table => exact absurd ⟨table, rfl⟩ h
    | _ => rfl
  rw [assignExports_apply, hassigned]

/-- If the exports are an object before, they are one afterwards. -/
def KeepsObject (m m' : State) : Prop := m.exports.IsObject → m'.exports.IsObject

/-- The only change of the exports keeps them an object, so all changes do. -/
theorem keepsObject : Kept KeepsObject where
  refl _ := id
  trans h h' := h' ∘ h
  scopes _ _ := id
  exchanged _ _ _ := id
  assigned _ path v h := isObject_assignedExports h path v
  stepped _ _ := id
  call _ h := h

/-! ## All points -/

/-- What a point with an object of exports starts has one. -/
theorem starts_keep {p q : Point} (hp : p.state.exports.IsObject) (hq : q ∈ p.starts host) : q.state.exports.IsObject := by
  obtain ⟨fuel, task, m⟩ := p
  cases task with
  | enter name f args =>
    rw [starts_enter] at hq
    split at hq
    · nomatch hq
    · obtain rfl := List.mem_singleton.mp hq
      exact hp
  | _ => exact (starts_started keepsObject (by nofun) q hq).state hp

/-- The state that a part leaves, however it ends. -/
def Point.after (host : Host) (p : Point) : State :=
  match p.task with
  | .eval e => leaves (eval host p.fuel e p.state)
  | .evalAll es => leaves (evalAll host p.fuel es p.state)
  | .evalFields table fields => leaves (evalFields host p.fuel table fields p.state)
  | .evalPath path => leaves (evalPath host p.fuel path p.state)
  | .execBlock block => leaves (execBlock host p.fuel block p.state)
  | .execAll stmts => leaves (execAll host p.fuel stmts p.state)
  | .exec s => leaves (exec host p.fuel s p.state)
  | .loop cond body => leaves (loop host p.fuel cond body p.state)
  | .assign span name keys v => leaves (assignVariable span name keys v p.state)
  | .enter name f args => leaves (inCall name (callFrame f args) (execAll host p.fuel f.body.stmts) p.state)
  | .apply _ _ => p.state

/-- The state that a part leaves is related to the one in which it is started. -/
theorem Kept.after {R : State → State → Prop} (hR : Kept R) (p : Point) : R p.state (p.after host) := by
  obtain ⟨fuel, task, m⟩ := p
  have hparts := hR.everywhere host fuel
  cases task with
  | eval e => exact hparts.eval e m
  | evalAll es => exact hparts.evalAll es m
  | evalFields table fields => exact hparts.evalFields table fields m
  | evalPath path => exact hparts.evalPath path m
  | execBlock block => exact hparts.execBlock block m
  | execAll stmts => exact hparts.execAll stmts m
  | exec s => exact hparts.exec s m
  | loop cond body => exact hparts.loop cond body m
  | assign span name keys v => exact (hR.parts host).assignVariable span name keys v m
  | enter name f args => exact (hR.parts host).inCall name _ (hparts.execAll f.body.stmts) m
  | apply function args => exact hR.refl m

/-! ## Runs -/

/-- The exports are an object in all states of a run. -/
theorem reached_keeps {limits : Limits} {answers : List String} {task : Task} {p : Point}
    (hp : Reached host ⟨fuel, task, .start limits answers⟩ p) : p.state.exports.IsObject := by
  induction hp with
  | start => exact Value.isObject_emptyObject
  | later _ hr ih => exact starts_keep ih hr

/-- A statement that assigns a value to the whole exports fails if the value is no object. It leaves the state in which the value was
evaluated. -/
theorem exec_assign_refused (span : Span) {value : Expression} {v : Value} {stepped after : State}
    (hstep : step host m = .ok () stepped) (hvalue : eval host fuel value stepped = .ok v after) (hv : ¬ v.IsObject) :
    exec host (fuel + 1) (.assign (.exports span []) value) m =
      .error (.fault (.problem span (.exportsType v.typeName))) after := by
  cases fuel with
  | zero =>
    rw [eval] at hvalue
    contradiction
  | succ fuel =>
    have hassign := assignExports_refused hv span after
    rw [exec]
    refine (bind_ok hstep _).trans ((bind_ok hvalue _).trans ?_)
    exact bind_error (r := assignExports span [] v) hassign _

/-- The exports at a point of a run. -/
structure Point.ExportsKept (host : Host) (p : Point) : Prop where
  /-- They are an object when the part is started. -/
  started : p.state.exports.IsObject
  /-- They are an object when the part has ended, also when it has failed. -/
  ended : (p.after host).exports.IsObject
  /-- Reading them gives an object and changes nothing. -/
  read : ∀ fuel, ∃ v, eval host (fuel + 1) .exports p.state = .ok v p.state ∧ v.IsObject
  /-- If the part assigns to all of them a value that is no object, it fails in the state in which the value was evaluated. -/
  refused : ∀ {fuel : Nat} {span : Span} {value : Expression} {v : Value} {stepped after : State}, p.fuel = fuel + 1 →
    p.task = .exec (.assign (.exports span []) value) → step host p.state = .ok () stepped →
      eval host fuel value stepped = .ok v after → ¬ v.IsObject →
        exec host p.fuel (.assign (.exports span []) value) p.state = .error (.fault (.problem span (.exportsType v.typeName))) after ∧
          p.after host = after

theorem exportsKept {p : Point} (h : p.state.exports.IsObject) : p.ExportsKept host where
  started := h
  ended := keepsObject.after p h
  read _ := ⟨p.state.exports, rfl, h⟩
  refused {_ span _ _ _ _} hfuel htask hstep hvalue hv := by
    obtain ⟨fuel, task, m⟩ := p
    obtain rfl := hfuel
    obtain rfl := htask
    have hexec := exec_assign_refused span hstep hvalue hv
    exact ⟨hexec, congrArg leaves hexec⟩

theorem runFor_keeps (host : Host) (fuel : Nat) (limits : Limits) (answers : List String) (program : Program) :
    (runFor host fuel limits answers program).state.exports.IsObject := by
  have hbody : (leaves (execBlock host fuel program.body (.start limits answers))).exports.IsObject :=
    (keepsObject.everywhere host fuel).execBlock program.body _ Value.isObject_emptyObject
  unfold runFor runWith
  cases hrun : execBlock host fuel program.body (.start limits answers) with
  | error halt after =>
    rw [hrun] at hbody
    rw [bind_error hrun]
    exact hbody
  | ok flow after =>
    rw [hrun] at hbody
    rw [bind_ok hrun]
    cases flow <;> exact hbody

/-- At every point of a run, with any limits and answers, the exports are an object before and after, and whatever is no object is refused
as a whole. So what a program exports when it ends is an object. -/
theorem exports_object {program : Program} {limits : Limits} {answers : List String} {p : Point}
    (hp : Reached host ⟨fuel, .execBlock program.body, .start limits answers⟩ p) :
    p.ExportsKept host ∧ (runFor host fuel limits answers program).state.exports.IsObject ∧
      ∀ (config : Config) (script : Source) (log : List Session.Record) (v : Value), config.limits = limits →
        (Session.execute config host answers script program log).outcome = .ok v → v.IsObject := by
  refine ⟨exportsKept (reached_keeps hp), runFor_keeps host fuel limits answers program, ?_⟩
  rintro config script log v rfl houtcome
  have hrun := runFor_keeps host ampleFuel config.limits answers program
  rw [← run_eq_runFor] at hrun
  unfold Session.execute at houtcome
  dsimp only at houtcome
  cases hhalt : (run host config.limits answers program).halt with
  | some halt =>
    rw [hhalt] at houtcome
    nomatch houtcome
  | none =>
    rw [hhalt] at houtcome
    obtain rfl := Except.ok.inj houtcome
    exact hrun

/-- A block starts its statements. -/
theorem reached_statements (block : Block) (fuel : Nat) (m : State) :
    Reached host ⟨fuel + 1, .execBlock block, m⟩ ⟨fuel, .execAll block.stmts, { m with scopes := bindBlock block [] :: m.scopes }⟩ :=
  .later (.start _) (List.mem_singleton_self _)

/-- An assignment that fails on its way into the exports leaves a null behind, in an object. -/
theorem exports_object_midway : ∃ program, Program.ofSource ⟨"case", "use host as kp;kp.exports.a.b = 1;"⟩ = .ok program ∧
    ∀ (host : Host) (answers : List String), ∃ p, Reached host ⟨9, .execBlock program.body, .start ⟨none, 64, none, 256⟩ answers⟩ p ∧
      (p.after host).exports = .object ⟨[(.string "a", .null)], []⟩ ∧ p.ExportsKept host := by
  have hcompiles : Program.ofSource ⟨"case", "use host as kp;kp.exports.a.b = 1;"⟩ = .ok ⟨some "kp", .mk [] []
      [.assign (.exports ⟨1, 28, 15, 29⟩ [.field "a", .field "b"]) (.const (.number (.int 1)))]⟩ := by cbv
  refine ⟨_, hcompiles, fun host answers => ?_⟩
  exact ⟨_, reached_statements _ 8 _, rfl, (exports_object (reached_statements _ 8 _)).1⟩

end Machine

end HostScript
