import Mathlib
import HostScript.Proofs.Machine.Lasting
import HostScript.Proofs.Machine.Scoping

/-!
# The values at the points of a run

`Point.values` lists all values there are when a part of a run is started and when it has ended: in the variables of all scopes, in the
exports, among the arguments and results of the part, and among all that has been written. If the constants of a program are in a class
of values that no operation of a script leaves, all values at all points of its runs are in the class (`Lasting.reached`).
-/

namespace HostScript.Machine

open Program (Expression Statement Block Place PathSegment Function PathConstantsIn)

/-! ## Values -/

/-- The keys and values of a table. -/
def entryValues (table : Table Value) : List Value := table.entries.flatMap fun entry => [entry.1, entry.2]

/-- The value of a slot, if it has one. -/
def Slot.values : Slot → List Value
  | .value v => [v]
  | _ => []

/-- The values of all variables, the exports and all that has been written. -/
def State.values (m : State) : List Value :=
  m.scopes.flatMap (fun scope => scope.flatMap fun entry => entry.2.values) ++ m.exports :: Event.outputs m.events

/-- The arguments of a part. -/
def Task.values : Task → List Value
  | .evalFields table _ => entryValues table
  | .assign _ _ keys v => v :: keys
  | .enter _ _ args | .apply _ args => args
  | _ => []

/-- The value with which a function is left. -/
def Flow.values : Flow → List Value
  | .return_ v => [v]
  | _ => []

/-- The values in a result and in the state after it. -/
def valuesLeft {α : Type} (values : α → List Value) : EStateM.Result Halt State α → List Value
  | .ok a after => values a ++ after.values
  | .error _ after => after.values

/-- The values that a part leaves, however it ends. -/
def Point.left (host : Host) (p : Point) : List Value :=
  match p.task with
  | .eval e => valuesLeft (fun v => [v]) (eval host p.fuel e p.state)
  | .evalAll es => valuesLeft id (evalAll host p.fuel es p.state)
  | .evalFields table fields => valuesLeft entryValues (evalFields host p.fuel table fields p.state)
  | .evalPath path => valuesLeft id (evalPath host p.fuel path p.state)
  | .execBlock block => valuesLeft Flow.values (execBlock host p.fuel block p.state)
  | .execAll stmts => valuesLeft Flow.values (execAll host p.fuel stmts p.state)
  | .exec s => valuesLeft Flow.values (exec host p.fuel s p.state)
  | .loop cond body => valuesLeft Flow.values (loop host p.fuel cond body p.state)
  | .assign span name keys v => valuesLeft (fun _ => []) (assignVariable span name keys v p.state)
  | .enter name f args => valuesLeft Flow.values (inCall name (callFrame f args) (execAll host p.fuel f.body.stmts) p.state)
  | .apply function args => (function.apply args).toOption.toList ++ p.state.values

/-- The values at a point: the arguments of the part, those in the state in which it is started, and those that it leaves. -/
def Point.values (host : Host) (p : Point) : List Value := p.task.values ++ (p.state.values ++ p.left host)

/-! ## Points that hold values of a class -/

/-- The arguments and the constants of a part are of a class. -/
def Task.Holds (V : Value → Prop) : Task → Prop
  | .eval e => e.ConstantsIn V
  | .evalAll es => Expression.AllConstantsIn V es
  | .evalFields table fields => V (.object table) ∧ Expression.FieldConstantsIn V fields
  | .evalPath path => PathConstantsIn V path
  | .execBlock block => block.ConstantsIn V
  | .execAll stmts => Statement.AllConstantsIn V stmts
  | .exec s => s.ConstantsIn V
  | .loop cond body => cond.ConstantsIn V ∧ body.ConstantsIn V
  | .assign _ _ keys v => V v ∧ ∀ key ∈ keys, V key
  | .enter _ f args => f.ConstantsIn V ∧ ∀ v ∈ args, V v
  | .apply _ args => ∀ v ∈ args, V v

/-- A part about to be run, with arguments and constants of a class, in a state that holds values of the class. -/
structure Point.Holds (V : Value → Prop) (p : Point) : Prop where
  task : p.task.Holds V
  state : p.state.Holds V

variable {V : Value → Prop} {host : Host} {m : State}

theorem State.Holds.values (h : m.Holds V) : ∀ v ∈ m.values, V v := by
  unfold State.values
  rw [List.forall_mem_append, List.forall_mem_cons]
  refine ⟨fun v hv => ?_, h.exports, fun v hv => ?_⟩
  · obtain ⟨scope, hscope, hv⟩ := List.mem_flatMap.mp hv
    obtain ⟨⟨name, slot⟩, hentry, hv⟩ := List.mem_flatMap.mp hv
    have hslot : slot.Holds V := h.scopes scope hscope _ hentry
    cases slot with
    | value w =>
      obtain rfl := List.mem_singleton.mp hv
      exact hslot
    | uninitialized => exact absurd hv List.not_mem_nil
    | function f => exact absurd hv List.not_mem_nil
  · obtain ⟨event, hevent, hv⟩ := List.mem_filterMap.mp hv
    have hholds := h.events event hevent
    cases event with
    | output w =>
      obtain rfl := Option.some.inj hv
      exact hholds
    | prompt text => nomatch hv

theorem Flow.Holds.values {flow : Flow} (h : flow.Holds V) : ∀ v ∈ flow.values, V v := by
  cases flow with
  | return_ v => exact List.forall_mem_singleton.mpr h
  | _ => exact List.forall_mem_nil _

theorem Lasting.entryValues (hV : Lasting V) {table : Table Value} (h : V (.object table)) :
    ∀ v ∈ entryValues table, V v := by
  intro v hv
  obtain ⟨entry, hentry, hv⟩ := List.mem_flatMap.mp hv
  have hboth := hV.entries h entry hentry
  rcases List.mem_cons.mp hv with rfl | hv
  · exact hboth.1
  · obtain rfl := List.mem_singleton.mp hv
    exact hboth.2

theorem Ends.values {α : Type} {Q : α → Prop} {r : EStateM.Result Halt State α} (h : Ends V Q r) {values : α → List Value}
    (hvalues : ∀ a, Q a → ∀ v ∈ values a, V v) : ∀ v ∈ valuesLeft values r, V v := by
  cases r with
  | ok a after => exact List.forall_mem_append.mpr ⟨hvalues a h.1, h.2.values⟩
  | error halt after => exact State.Holds.values h

/-- A point that holds values of a class leaves such values. -/
theorem Point.Holds.left (hV : Lasting V) {p : Point} (h : p.Holds V) : ∀ v ∈ p.left host, V v := by
  obtain ⟨fuel, task, m⟩ := p
  obtain ⟨htask, hm⟩ := h
  have hkeeps : Keeps V host fuel := hV.keeps fuel
  cases task with
  | eval e => exact (hkeeps.eval htask hm).values fun v hv => List.forall_mem_singleton.mpr hv
  | evalAll es => exact (hkeeps.evalAll htask hm).values fun vs hvs => hvs
  | evalFields table fields => exact (hkeeps.evalFields htask.1 htask.2 hm).values fun table htable => hV.entryValues htable
  | evalPath path => exact (hkeeps.evalPath htask hm).values fun keys hkeys => hkeys
  | execBlock block => exact (hkeeps.execBlock htask hm).values fun flow hflow => hflow.values
  | execAll stmts => exact (hkeeps.execAll htask hm).values fun flow hflow => hflow.values
  | exec s => exact (hkeeps.exec htask hm).values fun flow hflow => hflow.values
  | loop cond body => exact (hkeeps.loop htask.1 htask.2 hm).values fun flow hflow => hflow.values
  | assign span name keys v => exact (Ends.assignVariable hV hm htask.2 htask.1).values fun _ _ => List.forall_mem_nil _
  | enter name f args =>
    exact (Ends.inCall hm (hkeeps.execAll htask.1.body.stmts (hm.called htask.1 htask.2 name))).values fun flow hflow => hflow.values
  | apply function args =>
    refine List.forall_mem_append.mpr ⟨fun v hv => ?_, hm.values⟩
    cases hresult : function.apply args with
    | error fault =>
      rw [hresult] at hv
      exact absurd hv List.not_mem_nil
    | ok w =>
      rw [hresult] at hv
      obtain rfl := List.mem_singleton.mp hv
      exact hV.apply htask hresult

/-- All values at a point that holds values of a class are of the class. -/
theorem Point.Holds.values (hV : Lasting V) {p : Point} (h : p.Holds V) : ∀ v ∈ p.values host, V v := by
  refine List.forall_mem_append.mpr ⟨?_, List.forall_mem_append.mpr ⟨h.state.values, h.left hV⟩⟩
  obtain ⟨fuel, task, m⟩ := p
  have htask := h.task
  cases task with
  | evalFields table fields => exact hV.entryValues htask.1
  | assign span name keys v => exact List.forall_mem_cons.mpr htask
  | enter name f args => exact htask.2
  | apply function args => exact htask
  | _ => exact List.forall_mem_nil _

/-! ## What a point starts -/

namespace Lasting

open ScopingAux (mem_andThen)

variable (hV : Lasting V) {p : Point} {fuel : Nat}
include hV

/-- The parts of an expression. -/
theorem evalStarts {e : Expression} (he : e.ConstantsIn V) (hm : m.Holds V) (h : p ∈ Point.evalStarts host fuel e m) : p.Holds V := by
  have hkeeps : Keeps V host fuel := hV.keeps fuel
  have both : ∀ {left right : Expression}, left.ConstantsIn V → right.ConstantsIn V →
      p ∈ (⟨fuel, .eval left, m⟩ :: andThen (Machine.eval host fuel left m) fun _ after => [⟨fuel, .eval right, after⟩] :
        List Point) → p.Holds V := by
    intro left right hl hr hmem
    rcases List.mem_cons.mp hmem with rfl | hmem
    · exact ⟨hl, hm⟩
    · obtain ⟨v, after, hv, hmem⟩ := mem_andThen hmem
      obtain rfl := List.mem_singleton.mp hmem
      exact ⟨hr, ((hkeeps.eval hl hm).of_ok hv).2⟩
  cases e with
  | const v => exact absurd h List.not_mem_nil
  | local_ span name => exact absurd h List.not_mem_nil
  | exports => exact absurd h List.not_mem_nil
  | array items =>
    obtain rfl := List.mem_singleton.mp h
    exact ⟨he, hm⟩
  | object fields =>
    obtain rfl := List.mem_singleton.mp h
    exact ⟨⟨hV.emptyObject, he⟩, hm⟩
  | unary span op operand =>
    obtain rfl := List.mem_singleton.mp h
    exact ⟨he, hm⟩
  | arith span op left right => exact both he.1 he.2 h
  | compare span op left right => exact both he.1 he.2 h
  | logic op left right =>
    refine both he.1 he.2 ?_
    rcases List.mem_cons.mp h with rfl | h
    · exact List.mem_cons_self
    · refine List.mem_cons_of_mem _ ?_
      obtain ⟨v, after, hv, h⟩ := mem_andThen h
      rw [hv]
      rcases op with _ | _ <;> cases hv : v.isTruthy <;> rw [hv] at h
      · exact absurd h List.not_mem_nil
      · exact h
      · exact h
      · exact absurd h List.not_mem_nil
  | member span base field =>
    obtain rfl := List.mem_singleton.mp h
    exact ⟨he, hm⟩
  | index span base key => exact both he.1 he.2 h
  | builtin span function args =>
    rcases List.mem_cons.mp h with rfl | h
    · exact ⟨he, hm⟩
    · obtain ⟨vs, after, hvs, h⟩ := mem_andThen h
      obtain rfl := List.mem_singleton.mp h
      obtain ⟨hargs, hafter⟩ := (hkeeps.evalAll he hm).of_ok hvs
      exact ⟨hargs, hafter⟩
  | output span value =>
    obtain rfl := List.mem_singleton.mp h
    exact ⟨he, hm⟩
  | input span prompt =>
    obtain rfl := List.mem_singleton.mp h
    exact ⟨he, hm⟩
  | call span name args =>
    obtain ⟨f, after, hread, h⟩ := mem_andThen h
    obtain ⟨hf, hm⟩ := (Ends.readFunction hm).of_ok hread
    split at h
    · exact absurd h List.not_mem_nil
    · rcases List.mem_cons.mp h with rfl | h
      · exact ⟨he, hm⟩
      · obtain ⟨vs, after, hvs, h⟩ := mem_andThen h
        obtain rfl := List.mem_singleton.mp h
        obtain ⟨hargs, hafter⟩ := (hkeeps.evalAll he hm).of_ok hvs
        exact ⟨⟨hf, hargs⟩, hafter⟩

/-- The parts of a statement. -/
theorem execStarts {s : Statement} (hs : s.ConstantsIn V) (hm : m.Holds V) (h : p ∈ Point.execStarts host fuel s m) : p.Holds V := by
  have hkeeps : Keeps V host fuel := hV.keeps fuel
  cases s with
  | let_ name value =>
    obtain rfl := List.mem_singleton.mp h
    exact ⟨hs, hm⟩
  | assign target value =>
    cases target with
    | local_ span name path =>
      rcases List.mem_cons.mp h with rfl | h
      · exact ⟨hs.2, hm⟩
      · obtain ⟨v, after, hrun, h⟩ := mem_andThen h
        obtain ⟨hv, hm⟩ := (hkeeps.eval hs.2 hm).of_ok hrun
        rcases List.mem_cons.mp h with rfl | h
        · exact ⟨hs.1, hm⟩
        · obtain ⟨keys, after, hrun, h⟩ := mem_andThen h
          obtain rfl := List.mem_singleton.mp h
          obtain ⟨hkeys, hm⟩ := (hkeeps.evalPath hs.1 hm).of_ok hrun
          exact ⟨⟨hv, hkeys⟩, hm⟩
    | exports span path =>
      rcases List.mem_cons.mp h with rfl | h
      · exact ⟨hs.2, hm⟩
      · obtain ⟨v, after, hrun, h⟩ := mem_andThen h
        obtain rfl := List.mem_singleton.mp h
        exact ⟨hs.1, ((hkeeps.eval hs.2 hm).of_ok hrun).2⟩
  | expr e =>
    obtain rfl := List.mem_singleton.mp h
    exact ⟨hs, hm⟩
  | if_ cond body otherwise =>
    have hcond : cond.ConstantsIn V ∧ body.ConstantsIn V ∧ ∀ block ∈ otherwise.toList, block.ConstantsIn V := by
      cases otherwise with
      | none => exact ⟨hs.1, hs.2, List.forall_mem_nil _⟩
      | some block => exact ⟨hs.1, hs.2.1, List.forall_mem_singleton.mpr hs.2.2⟩
    rcases List.mem_cons.mp h with rfl | h
    · exact ⟨hcond.1, hm⟩
    · obtain ⟨v, after, hrun, h⟩ := mem_andThen h
      have hm := ((hkeeps.eval hcond.1 hm).of_ok hrun).2
      split at h
      · obtain rfl := List.mem_singleton.mp h
        exact ⟨hcond.2.1, hm⟩
      · obtain ⟨block, hblock, rfl⟩ := List.mem_map.mp h
        exact ⟨hcond.2.2 block hblock, hm⟩
  | while_ span cond body =>
    obtain rfl := List.mem_singleton.mp h
    exact ⟨hs, hm⟩
  | return_ value =>
    cases value with
    | none => exact absurd h List.not_mem_nil
    | some e =>
      obtain rfl := List.mem_singleton.mp h
      exact ⟨hs, hm⟩
  | break_ => exact absurd h List.not_mem_nil
  | continue_ => exact absurd h List.not_mem_nil
  | block body =>
    obtain rfl := List.mem_singleton.mp h
    exact ⟨hs, hm⟩

/-- The parts of a turn of a loop. -/
theorem loopStarts {cond : Expression} {body : Block} (hcond : cond.ConstantsIn V) (hbody : body.ConstantsIn V) (hm : m.Holds V)
    (h : p ∈ Point.loopStarts host fuel cond body m) : p.Holds V := by
  have hkeeps : Keeps V host fuel := hV.keeps fuel
  rcases List.mem_cons.mp h with rfl | h
  · exact ⟨hcond, hm⟩
  · obtain ⟨v, after, hrun, h⟩ := mem_andThen h
    have hm := ((hkeeps.eval hcond hm).of_ok hrun).2
    split at h
    · rcases List.mem_cons.mp h with rfl | h
      · exact ⟨hbody, hm⟩
      · obtain ⟨flow, after, hrun, h⟩ := mem_andThen h
        have hm := ((hkeeps.execBlock hbody hm).of_ok hrun).2
        have hnext : p ∈ andThen (Machine.step host after) (fun _ after => [(⟨fuel, .loop cond body, after⟩ : Point)]) := by
          cases flow with
          | break_ => exact absurd h List.not_mem_nil
          | return_ v => exact absurd h List.not_mem_nil
          | normal => exact h
          | continue_ => exact h
        obtain ⟨_, after, hrun, h⟩ := mem_andThen hnext
        obtain rfl := List.mem_singleton.mp h
        exact ⟨⟨hcond, hbody⟩, ((Ends.step hm).of_ok hrun).2⟩
    · exact absurd h List.not_mem_nil

/-- What a point starts that holds values of the class holds such values. -/
theorem starts {q : Point} (hq : q.Holds V) (h : p ∈ q.starts host) : p.Holds V := by
  obtain ⟨fuel, task, m⟩ := q
  obtain ⟨htask, hm⟩ := hq
  -- A task with no fuel left starts nothing.
  cases task with
  | enter name f args =>
    have hstarts : p ∈ (if m.budget.limits.maxCallDepth ≤ m.budget.depth then [] else
        [⟨fuel, .execAll f.body.stmts, m.called name (callFrame f args)⟩] : List Point) := by
      cases fuel <;> exact h
    split at hstarts
    · exact absurd hstarts List.not_mem_nil
    · obtain rfl := List.mem_singleton.mp hstarts
      exact ⟨htask.1.body.stmts, hm.called htask.1 htask.2 name⟩
  | eval e =>
    cases fuel with
    | zero => exact absurd h List.not_mem_nil
    | succ fuel => exact hV.evalStarts htask hm h
  | evalAll es =>
    rcases fuel with _ | fuel
    · exact absurd h List.not_mem_nil
    · cases es with
      | nil => exact absurd h List.not_mem_nil
      | cons e es =>
        rcases List.mem_cons.mp h with rfl | h
        · exact ⟨htask.1, hm⟩
        · obtain ⟨v, after, hrun, h⟩ := mem_andThen h
          obtain rfl := List.mem_singleton.mp h
          exact ⟨htask.2, (((hV.keeps fuel).eval htask.1 hm).of_ok hrun).2⟩
  | evalFields table fields =>
    rcases fuel with _ | fuel
    · exact absurd h List.not_mem_nil
    · cases fields with
      | nil => exact absurd h List.not_mem_nil
      | cons field fields =>
        obtain ⟨key, value⟩ := field
        obtain ⟨htable, ⟨hkey, hvalue⟩, hfields⟩ := htask
        rcases List.mem_cons.mp h with rfl | h
        · exact ⟨hkey, hm⟩
        · obtain ⟨k, after, hrun, h⟩ := mem_andThen h
          obtain ⟨hk, hm⟩ := ((hV.keeps fuel).eval hkey hm).of_ok hrun
          rcases List.mem_cons.mp h with rfl | h
          · exact ⟨hvalue, hm⟩
          · obtain ⟨v, after, hrun, h⟩ := mem_andThen h
            obtain rfl := List.mem_singleton.mp h
            obtain ⟨hv, hm⟩ := ((hV.keeps fuel).eval hvalue hm).of_ok hrun
            exact ⟨⟨hV.insertEntry htable hk hv, hfields⟩, hm⟩
  | evalPath path =>
    rcases fuel with _ | fuel
    · exact absurd h List.not_mem_nil
    · rcases path with _ | ⟨_ | key, path⟩
      · exact absurd h List.not_mem_nil
      · obtain rfl := List.mem_singleton.mp h
        exact ⟨htask, hm⟩
      · rcases List.mem_cons.mp h with rfl | h
        · exact ⟨htask.1, hm⟩
        · obtain ⟨v, after, hrun, h⟩ := mem_andThen h
          obtain rfl := List.mem_singleton.mp h
          exact ⟨htask.2, (((hV.keeps fuel).eval htask.1 hm).of_ok hrun).2⟩
  | execBlock block =>
    rcases fuel with _ | fuel
    · exact absurd h List.not_mem_nil
    · obtain rfl := List.mem_singleton.mp h
      have hblock : block.ConstantsIn V := htask
      exact ⟨hblock.stmts, hm.entered hblock⟩
  | execAll stmts =>
    rcases fuel with _ | fuel
    · exact absurd h List.not_mem_nil
    · cases stmts with
      | nil => exact absurd h List.not_mem_nil
      | cons s stmts =>
        rcases List.mem_cons.mp h with rfl | h
        · exact ⟨htask.1, hm⟩
        · obtain ⟨flow, after, hrun, h⟩ := mem_andThen h
          cases flow with
          | normal =>
            obtain rfl := List.mem_singleton.mp h
            exact ⟨htask.2, (((hV.keeps fuel).exec htask.1 hm).of_ok hrun).2⟩
          | break_ => exact absurd h List.not_mem_nil
          | continue_ => exact absurd h List.not_mem_nil
          | return_ v => exact absurd h List.not_mem_nil
  | exec s =>
    rcases fuel with _ | fuel
    · exact absurd h List.not_mem_nil
    · obtain ⟨_, after, hrun, h⟩ := mem_andThen h
      exact hV.execStarts htask ((Ends.step hm).of_ok hrun).2 h
  | loop cond body =>
    rcases fuel with _ | fuel
    · exact absurd h List.not_mem_nil
    · exact hV.loopStarts htask.1 htask.2 hm h
  | assign span name keys v => cases fuel <;> exact absurd h List.not_mem_nil
  | apply function args => cases fuel <;> exact absurd h List.not_mem_nil

/-- A run begins without variables. -/
theorem start (limits : Limits) (answers : List String) : (State.start limits answers).Holds V :=
  ⟨List.forall_mem_nil _, hV.emptyObject, List.forall_mem_nil _⟩

/-- If the constants of a program are in the class, so are all values at all points of its runs. -/
theorem reached {program : Program} (h : program.body.ConstantsIn V) {fuel : Nat} {limits : Limits} {answers : List String} {p : Point}
    (hp : Reached host ⟨fuel, .execBlock program.body, .start limits answers⟩ p) : ∀ v ∈ p.values host, V v := by
  suffices hholds : p.Holds V from hholds.values hV
  induction hp with
  | start => exact ⟨h, hV.start limits answers⟩
  | later _ hr ih => exact hV.starts ih hr

end Lasting

end HostScript.Machine
