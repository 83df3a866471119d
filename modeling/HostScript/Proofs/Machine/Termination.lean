import Mathlib
import HostScript.Program.Resolve
import HostScript.Proofs.Machine.Fuel
import HostScript.Proofs.Machine.Slots

/-!
# Runs end

A run with a step limit below the greatest count ends, and so does the run of a program without loops, whatever its limits. In the
first case every statement and every turn of a loop takes a step, so the steps that are left become fewer whenever a body is
executed again. In the second case only calls execute a body again, and the calls that may still be opened become fewer.

The counter of steps stops at the largest unsigned 64-bit integer. A limit of that size is never exceeded, and does not end a run.
-/

namespace HostScript.Program

/-! ## Programs without loops -/

mutual

/-- No `while` stands in a statement. -/
def Statement.loopless : Statement → Bool
  | .if_ _ body none => body.loopless
  | .if_ _ body (some otherwise) => body.loopless && otherwise.loopless
  | .while_ _ _ _ => false
  | .block body => body.loopless
  | _ => true

/-- No `while` stands in a block, nor in the functions declared in it. -/
def Block.loopless : Block → Bool
  | .mk _ functions stmts => functionsLoopless functions && stmtsLoopless stmts

/-- No `while` stands in the body of a function. -/
def Function.loopless : Function → Bool
  | .mk _ _ _ body => body.loopless

/-- No `while` stands in functions. -/
def functionsLoopless : List Function → Bool
  | [] => true
  | f :: rest => f.loopless && functionsLoopless rest

/-- No `while` stands in statements. -/
def stmtsLoopless : List Statement → Bool
  | [] => true
  | s :: rest => s.loopless && stmtsLoopless rest

end

theorem functionsLoopless_iff {functions : List Function} : functionsLoopless functions = true ↔ ∀ f ∈ functions, f.loopless := by
  induction functions with
  | nil => simp [functionsLoopless]
  | cons f rest ih => simp [functionsLoopless, ih]

end HostScript.Program

namespace HostScript.Machine

open Program (Expression Statement Block Place PathSegment Function)

variable {host : Host}

/-! ## Runs with a step limit -/

/-- A step counts itself, and leaves the limits and the calls that are open. -/
theorem budget_step_counts (b : Budget) (elapsed : Nat) :
    (b.step elapsed).1.limits = b.limits ∧ (b.step elapsed).1.depth = b.depth ∧
      (b.step elapsed).1.steps = min (b.steps + 1) Budget.maxCounted := by
  unfold Budget.step
  dsimp only
  repeat' split
  all_goals exact ⟨rfl, rfl, rfl⟩

/-- A step that exceeds no limit is within the step limit. -/
theorem budget_step_within {b : Budget} {elapsed n : Nat} (hn : b.limits.maxSteps = some n) (h : (b.step elapsed).2 = none) :
    min (b.steps + 1) Budget.maxCounted ≤ n := by
  by_contra hlt
  unfold Budget.step at h
  simp only [hn, Nat.lt_of_not_le hlt, if_true] at h
  contradiction

/-- What a step does that is not the last. -/
theorem step_carries {G G' : State → Prop}
    (h : ∀ m elapsed, G m → (m.budget.step elapsed).2 = none → G' { m with budget := (m.budget.step elapsed).1 }) :
    Carries G (fun _ => G') fun _ => step host := by
  refine .primitive fun m hm => ?_
  rw [step_apply]
  generalize hstep : m.budget.step (host.clock (m.budget.steps + 1)) = result
  obtain ⟨budget, fault⟩ := result
  cases fault with
  | some fault => exact Halt.noConfusion
  | none =>
    have := h m (host.clock (m.budget.steps + 1)) hm
    rw [hstep] at this
    exact this rfl

/-- A run with the step limit `n` that has not exceeded it and is stopped after at most `left` further steps. -/
structure StepsLeft (n left : Nat) (m : State) : Prop where
  limit : m.budget.limits.maxSteps = some n
  within : m.budget.steps ≤ n
  enough : n < m.budget.steps + left

namespace StepsLeft

variable {n left : Nat}

theorem succ {m : State} (h : StepsLeft n left m) : StepsLeft n (left + 1) m :=
  ⟨h.limit, h.within, Nat.lt_succ_of_lt h.enough⟩

/-- A step uses up one of the steps that are left, as long as the counter has not come to its end. -/
theorem step (hn : n < Budget.maxCounted) : Carries (StepsLeft n (left + 1)) (fun _ => StepsLeft n left) fun _ => step host := by
  refine step_carries fun m elapsed hm hok => ?_
  obtain ⟨hlimits, -, hsteps⟩ := budget_step_counts m.budget elapsed
  have hwithin := budget_step_within hm.limit hok
  have henough := hm.enough
  refine ⟨hlimits ▸ hm.limit, ?_, ?_⟩
  · exact hsteps ▸ hwithin
  · change n < (m.budget.step elapsed).1.steps + left
    omega

/-- What is executed with steps left ends: the rows of statements and the loops. -/
structure Ends (host : Host) (n left : Nat) : Prop where
  execAll (stmts : List Statement) :
    Carries (StepsLeft n left) (fun _ => StepsLeft n left) fun fuel => Machine.execAll host fuel stmts
  loop (cond : Expression) (body : Block) :
    Carries (StepsLeft n left) (fun _ => StepsLeft n left) fun fuel => Machine.loop host fuel cond body

/-- Where rows of statements end, functions can be called. -/
theorem stage (h : ∀ stmts, Carries (StepsLeft n left) (fun _ => StepsLeft n left) fun fuel => Machine.execAll host fuel stmts) :
    Stage host (StepsLeft n left) fun _ => True where
  exchanged _ _ hm := ⟨hm.limit, hm.within, hm.enough⟩
  exported _ hm := ⟨hm.limit, hm.within, hm.enough⟩
  bound _ _ hm := ⟨hm.limit, hm.within, hm.enough⟩
  replaced _ _ hm := ⟨hm.limit, hm.within, hm.enough⟩
  found _ _ := trivial
  call {f} name args _ := by
    intro m hm
    simp only [inCall_apply]
    by_cases hdepth : m.budget.limits.maxCallDepth ≤ m.budget.depth
    · simp only [hdepth, if_true]
      exact .done Halt.noConfusion
    · simp only [hdepth, if_false]
      exact (h f.body.stmts (m.called name (callFrame f args)) ⟨hm.limit, hm.within, hm.enough⟩).leaving
        fun _ _ hafter => ⟨hafter.limit, hafter.within, hafter.enough⟩

theorem execBlock (h : ∀ stmts, Carries (StepsLeft n left) (fun _ => StepsLeft n left) fun fuel => Machine.execAll host fuel stmts)
    (block : Block) : Carries (StepsLeft n left) (fun _ => StepsLeft n left) fun fuel => Machine.execBlock host fuel block :=
  .succ (.inScope (h block.stmts) (fun _ hm => ⟨hm.limit, hm.within, hm.enough⟩) fun _ _ hm => ⟨hm.limit, hm.within, hm.enough⟩)

/-- A statement uses up at least one of the steps that are left. -/
theorem exec (hn : n < Budget.maxCounted) (h : Ends host n left) (s : Statement) :
    Carries (StepsLeft n (left + 1)) (fun _ => StepsLeft n left) fun fuel => Machine.exec host fuel s := by
  refine (stage h.execAll).exec (step hn) ?_
  cases s with
  | if_ cond body otherwise => exact ⟨execBlock h.execAll body, fun block _ => execBlock h.execAll block⟩
  | while_ span cond body => exact h.loop cond body
  | block body => exact execBlock h.execAll body
  | _ => trivial

theorem ends (hn : n < Budget.maxCounted) (left : Nat) : Ends host n left := by
  induction left with
  | zero =>
    have hnone : ∀ m, ¬StepsLeft n 0 m := fun m hm => absurd hm.enough (by have := hm.within; omega)
    exact ⟨fun _ m hm => absurd hm (hnone m), fun _ _ m hm => absurd hm (hnone m)⟩
  | succ left ih =>
    have hall : ∀ stmts, Carries (StepsLeft n (left + 1)) (fun _ => StepsLeft n (left + 1)) fun fuel =>
        Machine.execAll host fuel stmts := by
      intro stmts
      refine .succ ?_
      cases stmts with
      | nil => exact .pure _ fun _ hm => hm
      | cons s rest =>
        refine .bind (exec hn ih s) fun flow => ?_
        cases flow with
        | normal => exact (ih.execAll rest).mono (fun _ hm => hm) fun _ _ hm => hm.succ
        | _ => exact .pure _ fun _ hm => hm.succ
    refine ⟨hall, fun cond body => .succ ?_⟩
    rw [show (fun fuel => Machine.loop host (fuel + 1) cond body) = _ from funext fun fuel => Machine.loop.eq_2 ..]
    refine .bind ((stage hall).eval cond) fun v => ?_
    by_cases hv : v.isTruthy = true
    · simp only [hv]
      refine .bind (execBlock hall body) fun flow => ?_
      -- the turn that follows begins with a step
      have hnext : Carries (StepsLeft n (left + 1)) (fun _ => StepsLeft n (left + 1)) fun fuel =>
          Machine.step host >>= fun _ => Machine.loop host fuel cond body :=
        .bind (step hn) fun _ => (ih.loop cond body).mono (fun _ hm => hm) fun _ _ hm => hm.succ
      cases flow with
      | normal => exact hnext
      | continue_ => exact hnext
      | break_ => exact .pure _ fun _ hm => hm
      | return_ value => exact .pure _ fun _ hm => hm
    · simp only [hv]
      exact .pure _ fun _ hm => hm

end StepsLeft

/-! ## Runs of programs without loops -/

/-- A slot that holds no function with a loop. -/
def Slot.Loopless : Slot → Prop
  | .function f => f.loopless = true
  | _ => True

theorem loopless_value (v : Value) : (Slot.value v).Loopless := trivial

theorem loopless_bindBlock {block : Block} (hblock : block.loopless = true) : Scope.All Slot.Loopless (bindBlock block []) := by
  refine Scope.All.nil.bindBlock trivial ?_
  obtain ⟨locals, functions, stmts⟩ := block
  rw [Block.loopless, Bool.and_eq_true, Program.functionsLoopless_iff] at hblock
  exact hblock.1

theorem loopless_callFrame {f : Function} (hf : f.loopless = true) (args : List Value) :
    Scope.All Slot.Loopless (callFrame f args) := by
  refine Scope.All.callFrame trivial (fun _ _ => trivial) ?_
  obtain ⟨span, name, params, locals, functions, stmts⟩ := f
  rw [Function.loopless, Block.loopless, Bool.and_eq_true, Program.functionsLoopless_iff] at hf
  exact hf.1

/-- A run with `depth` of at most `maxDepth` calls open, in which no function with a loop can be found. -/
structure CallsOpen (maxDepth depth : Nat) (m : State) : Prop where
  limit : m.budget.limits.maxCallDepth = maxDepth
  opened : m.budget.depth = depth
  unlooped : AllSlots Slot.Loopless m.scopes

namespace CallsOpen

variable {maxDepth depth : Nat}

theorem step : Carries (CallsOpen maxDepth depth) (fun _ => CallsOpen maxDepth depth) fun _ => Machine.step host := by
  refine step_carries fun m elapsed hm _ => ?_
  obtain ⟨hlimits, hdepth, -⟩ := budget_step_counts m.budget elapsed
  exact ⟨hlimits ▸ hm.limit, hdepth ▸ hm.opened, hm.unlooped⟩

mutual

/-- Without loops the execution of a statement ends. -/
theorem exec (h : Stage host (CallsOpen maxDepth depth) fun f => f.loopless = true) (s : Statement) (hs : s.loopless = true) :
    Carries (CallsOpen maxDepth depth) (fun _ => CallsOpen maxDepth depth) fun fuel => Machine.exec host fuel s := by
  refine h.exec step ?_
  cases s with
  | if_ cond body otherwise =>
    cases otherwise with
    | none => exact ⟨execBlock h body hs, fun block hblock => absurd hblock (Option.some_ne_none block).symm⟩
    | some otherwise =>
      rw [Statement.loopless, Bool.and_eq_true] at hs
      refine ⟨execBlock h body hs.1, fun block hblock => ?_⟩
      obtain rfl := Option.some.inj hblock
      exact execBlock h otherwise hs.2
  | while_ span cond body => exact absurd hs (by simp [Statement.loopless])
  | block body => exact execBlock h body hs
  | _ => trivial
termination_by structural s

/-- Without loops the execution of a block ends. -/
theorem execBlock (h : Stage host (CallsOpen maxDepth depth) fun f => f.loopless = true) (block : Block)
    (hblock : block.loopless = true) :
    Carries (CallsOpen maxDepth depth) (fun _ => CallsOpen maxDepth depth) fun fuel => Machine.execBlock host fuel block := by
  have hnames : Scope.All Slot.Loopless (bindBlock block []) := loopless_bindBlock hblock
  have hbody : Carries (CallsOpen maxDepth depth) (fun _ => CallsOpen maxDepth depth) fun fuel =>
      Machine.execAll host fuel block.stmts := by
    cases block with
    | mk locals functions stmts =>
      rw [Block.loopless, Bool.and_eq_true] at hblock
      exact execAll h stmts hblock.2
  refine .succ (.inScope hbody (fun m hm => ?_) fun _ after hafter => ?_)
  · exact ⟨hm.limit, hm.opened, List.forall_mem_cons.mpr ⟨hnames, hm.unlooped⟩⟩
  · exact ⟨hafter.limit, hafter.opened, hafter.unlooped.tail⟩
termination_by structural block

/-- Without loops the execution of statements one after the other ends. -/
theorem execAll (h : Stage host (CallsOpen maxDepth depth) fun f => f.loopless = true) (stmts : List Statement)
    (hstmts : Program.stmtsLoopless stmts = true) :
    Carries (CallsOpen maxDepth depth) (fun _ => CallsOpen maxDepth depth) fun fuel => Machine.execAll host fuel stmts := by
  refine .succ ?_
  cases stmts with
  | nil => exact .pure _ fun _ hm => hm
  | cons s rest =>
    rw [Program.stmtsLoopless, Bool.and_eq_true] at hstmts
    refine .bind (exec h s hstmts.1) fun flow => ?_
    cases flow with
    | normal => exact execAll h rest hstmts.2
    | _ => exact .pure _ fun _ hm => hm
termination_by structural stmts

end

/-- As long as calls may be opened, functions without loops can be called. -/
theorem stage (left depth : Nat) (hleft : maxDepth ≤ depth + left) :
    Stage host (CallsOpen maxDepth depth) fun f => f.loopless = true where
  exchanged _ _ hm := ⟨hm.limit, hm.opened, hm.unlooped⟩
  exported _ hm := ⟨hm.limit, hm.opened, hm.unlooped⟩
  bound name v hm := ⟨hm.limit, hm.opened, hm.unlooped.bound (loopless_value v) name⟩
  replaced name v hm := ⟨hm.limit, hm.opened, hm.unlooped.replaced (loopless_value v) name⟩
  found hm hf := hm.unlooped.found hf
  call {f} name args hf := by
    intro m hm
    simp only [inCall_apply, hm.limit, hm.opened]
    by_cases hdepth : maxDepth ≤ depth
    · simp only [hdepth, if_true]
      exact .done Halt.noConfusion
    · simp only [hdepth, if_false]
      cases left with
      | zero => omega
      | succ left =>
        have hbody : Program.stmtsLoopless f.body.stmts = true := by
          obtain ⟨span, name, params, locals, functions, stmts⟩ := f
          rw [Function.loopless, Block.loopless, Bool.and_eq_true] at hf
          exact hf.2
        have hcalled : CallsOpen maxDepth (depth + 1) (m.called name (callFrame f args)) := by
          exact ⟨hm.limit, congrArg (· + 1) hm.opened, List.forall_mem_cons.mpr ⟨loopless_callFrame hf args, hm.unlooped.drop _⟩⟩
        refine (execAll (stage left (depth + 1) (by omega)) f.body.stmts hbody _ hcalled).leaving fun _ after hafter => ?_
        refine ⟨hafter.limit, ?_, hm.unlooped.restored hafter.unlooped _⟩
        show after.budget.depth - 1 = depth
        have := hafter.opened
        omega

end CallsOpen

/-! ## Runs of programs -/

/-- A run whose outermost block ends has one result. -/
theorem evaluates_of_carries {G : State → Prop} {limits : Limits} {answers : List String} {program : Program}
    (hstart : G (.start limits answers)) (h : Carries G (fun _ => G) fun fuel => execBlock host fuel program.body) :
    ∃! result, Evaluates host limits answers program result := by
  have hrun : Carries G (fun _ _ => True) fun fuel => runWith host fuel program := by
    refine .bind h fun flow => ?_
    cases flow with
    | normal => exact .pure _ fun _ _ => trivial
    | _ => exact .primitive fun m _ => Halt.noConfusion
  obtain ⟨enough, out, hdone, hsame⟩ := hrun _ hstart
  have hout : runWith host enough program (.start limits answers) = out := hsame enough le_rfl
  have hresult : Evaluates host limits answers program (runFor host enough limits answers program) := by
    refine ⟨?_, enough, rfl⟩
    unfold runFor
    rw [hout]
    cases out with
    | ok a after => exact (Option.some_ne_none _).symm
    | error halt after => exact fun hhalt => hdone (Option.some.inj hhalt)
  exact ⟨_, hresult, fun result h => h.unique hresult⟩

/-- Every run with a step limit below the greatest count has a result, and so has every run of a program without loops: whatever
the program, the host, the answers and the other limits are, and whatever the calls in it do. -/
theorem run_evaluates (host : Host) (limits : Limits) (answers : List String) (program : Program)
    (h : (∃ n, limits.maxSteps = some n ∧ n < Budget.maxCounted) ∨ program.body.loopless = true) :
    ∃! result, Evaluates host limits answers program result := by
  rcases h with ⟨n, hlimit, hn⟩ | hloopless
  · have hstart : StepsLeft n (n + 1) (.start limits answers) := ⟨hlimit, Nat.zero_le n, by simp [State.start, Budget.start]⟩
    exact evaluates_of_carries hstart (StepsLeft.execBlock (StepsLeft.ends hn (n + 1)).execAll program.body)
  · have hstart : CallsOpen limits.maxCallDepth 0 (.start limits answers) :=
      ⟨rfl, rfl, fun scope hscope => absurd hscope List.not_mem_nil⟩
    have hstage : Stage host (CallsOpen limits.maxCallDepth 0) fun f => f.loopless = true :=
      CallsOpen.stage limits.maxCallDepth 0 (by omega)
    exact evaluates_of_carries hstart (CallsOpen.execBlock hstage program.body hloopless)

/-- An endless loop with a step limit, and a function that calls itself. -/
theorem run_evaluates_endless :
    let host : Host := ⟨.scripted, fun _ => 0⟩
    let here : Span := ⟨1, 1, 0, 0⟩
    let loop : Program := ⟨none, .mk [] [] [.while_ here (.const (.bool true)) (.mk [] [] [])]⟩
    let self : Function := .mk here "f" [] (.mk [] [] [.expr (.call here "f" [])])
    let recursion : Program := ⟨none, .mk [] [self] [.expr (.call here "f" [])]⟩
    (18446744073709551614 < Budget.maxCounted ∧
      ∃! result, Evaluates host ⟨some 18446744073709551614, 64, none, 256⟩ [] loop result) ∧
    recursion.body.loopless = true ∧ ∃! result, Evaluates host ⟨none, 1000000, none, 256⟩ [] recursion result := by
  intro host here loop self recursion
  have hlimit : 18446744073709551614 < Budget.maxCounted := by decide
  have hloopless : recursion.body.loopless = true := by decide
  exact ⟨⟨hlimit, run_evaluates host _ [] loop (.inl ⟨_, rfl, hlimit⟩)⟩, hloopless, run_evaluates host _ [] recursion (.inr hloopless)⟩

/-! ## The greatest limit -/

/-- A run with the greatest step limit and no time limit. -/
structure Unstopped (m : State) : Prop where
  limit : m.budget.limits.maxSteps = some Budget.maxCounted
  untimed : m.budget.limits.timeLimit = none

/-- No step stops it: the counter cannot get past the limit. -/
theorem Unstopped.step {m : State} (h : Unstopped m) (host : Host) :
    ∃ after, Machine.step host m = .ok () after ∧ Unstopped after ∧ after.events = m.events := by
  have hcounted : ¬Budget.maxCounted < min (m.budget.steps + 1) Budget.maxCounted := by omega
  have hstep : ∀ elapsed, m.budget.step elapsed = ({ m.budget with steps := min (m.budget.steps + 1) Budget.maxCounted }, none) := by
    intro elapsed
    unfold Budget.step
    simp only [h.limit, h.untimed, hcounted, if_false]
  refine ⟨{ m with budget := { m.budget with steps := min (m.budget.steps + 1) Budget.maxCounted } }, ?_, ⟨h.limit, h.untimed⟩, rfl⟩
  rw [step_apply, hstep]

/-- The empty loop does not come to an end. -/
theorem Unstopped.loop {m : State} (h : Unstopped m) (host : Host) (fuel : Nat) :
    ∃ after, Machine.loop host fuel (.const (.bool true)) (.mk [] [] []) m = .error .outOfFuel after := by
  induction fuel generalizing m with
  | zero => exact ⟨m, rfl⟩
  | succ fuel ih =>
    -- a turn needs fuel for its condition and for its body
    rcases fuel with _ | _ | fuel
    · exact ⟨m, rfl⟩
    · exact ⟨m, rfl⟩
    · obtain ⟨after, hstep, hafter, -⟩ := h.step host
      obtain ⟨last, hlast⟩ := ih hafter
      have hturn : Machine.loop host (fuel + 3) (.const (.bool true)) (.mk [] [] []) m =
          (Machine.step host >>= fun _ => Machine.loop host (fuel + 2) (.const (.bool true)) (.mk [] [] [])) m := rfl
      exact ⟨last, by rw [hturn, bind_ok hstep, hlast]⟩

/-- A block with nothing but the empty loop does not come to an end. -/
theorem Unstopped.execBlock {m : State} (h : Unstopped m) (host : Host) (fuel : Nat) (span : Span) :
    ∃ after, Machine.execBlock host fuel (.mk [] [] [.while_ span (.const (.bool true)) (.mk [] [] [])]) m =
      .error .outOfFuel after := by
  rcases fuel with _ | _ | _ | fuel
  · exact ⟨m, rfl⟩
  · exact ⟨_, rfl⟩
  · exact ⟨_, rfl⟩
  · have hentered : Unstopped { m with scopes := [] :: m.scopes } := ⟨h.limit, h.untimed⟩
    obtain ⟨after, hstep, hafter, -⟩ := hentered.step host
    obtain ⟨last, hlast⟩ := hafter.loop host fuel
    have hexec : Machine.exec host (fuel + 1) (.while_ span (.const (.bool true)) (.mk [] [] [])) { m with scopes := [] :: m.scopes } =
        .error .outOfFuel last := by
      unfold Machine.exec
      rw [bind_ok hstep]
      exact hlast
    have hall : Machine.execAll host (fuel + 2) [.while_ span (.const (.bool true)) (.mk [] [] [])]
        { m with scopes := [] :: m.scopes } = .error .outOfFuel last := bind_error hexec _
    refine ⟨last.dropScope, ?_⟩
    rw [Machine.execBlock, inScope_apply]
    exact (congrArg (leaving State.dropScope) hall).trans rfl

/-- With the largest unsigned 64-bit integer as its step limit an empty loop has no result. -/
theorem run_evaluates_not_greatest :
    ∃ program, Program.ofSource ⟨"loop", "while(true){}"⟩ = .ok program ∧
      ¬∃ result, Evaluates ⟨.scripted, fun _ => 0⟩ ⟨some 18446744073709551615, 64, none, 256⟩ [] program result := by
  refine ⟨⟨none, .mk [] [] [.while_ ⟨1, 1, 0, 13⟩ (.const (.bool true)) (.mk [] [] [])]⟩, by cbv, ?_⟩
  rintro ⟨result, hresult, fuel, rfl⟩
  have hstart : Unstopped (.start ⟨some 18446744073709551615, 64, none, 256⟩ []) := ⟨rfl, rfl⟩
  obtain ⟨after, hblock⟩ := hstart.execBlock ⟨.scripted, fun _ => 0⟩ fuel ⟨1, 1, 0, 13⟩
  refine hresult ?_
  unfold runFor runWith
  rw [bind_error hblock]

end HostScript.Machine
