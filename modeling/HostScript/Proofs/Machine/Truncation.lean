import Mathlib
import HostScript.Proofs.Machine.Closure
import HostScript.Proofs.Machine.Primitive
import HostScript.Proofs.Machine.Termination
import HostScript.Session

/-!
# Limits only truncate a run

Two runs of one program, of which the second is granted more: more steps or no step limit, deeper calls, or further answers. They
go on alike until the first one hits what the second one does not, and there the first one ends. So either both results are the
same, or the first one ends with the fault of that limit and what it has exchanged with its host is the beginning of what the
second one exchanges (`runFor_granted_more`). For a step limit below the greatest count the number of steps of the unlimited run
decides which. The greatest count itself limits nothing: the counter of steps stops there, and a run goes on past it
(`runFor_granted_more_not_greatest`).

The proof relates the state of the second run to that of the first by a function, `State.grant`, and carries the relation through
the machine with `Closed.everywhere`.
-/

/-- Limits without a time limit, and others that are at least as wide: a larger step limit or none, and deeper calls. -/
structure HostScript.Limits.Wider (narrow wide : HostScript.Limits) : Prop where
  untimed : narrow.timeLimit = none
  untimedWide : wide.timeLimit = none
  steps : ∀ limit, wide.maxSteps = some limit → ∃ less, narrow.maxSteps = some less ∧ less ≤ limit
  depth : narrow.maxCallDepth ≤ wide.maxCallDepth

namespace HostScript.Machine

/-- Two results show the same: what was exchanged with the host, the steps taken, the exports, and how the run ended. -/
structure Result.Agrees (first second : Result) : Prop where
  history : first.state.history = second.state.history
  steps : first.state.budget.steps = second.state.budget.steps
  exports : first.state.exports = second.state.exports
  halt : first.halt = second.halt

/-- What the first result has exchanged with its host is the beginning of what the second one has exchanged. -/
structure Result.Begins (first second : Result) : Prop where
  history : first.state.history <+: second.state.history
  outputs : Event.outputs first.state.history <+: Event.outputs second.state.history
  prompts : Event.prompts first.state.history <+: Event.prompts second.state.history

/-- A state with other limits and further answers. -/
def State.grant (limits : Limits) (extra : List String) (m : State) : State :=
  { m with budget := { m.budget with limits }, answers := m.answers ++ extra }

/-- The reasons for which a run ends that another goes on from, and the limit that is visible then: it hits a limit that the other
has not, or lacks an answer that the other has. -/
inductive CutBy (host : Host) (narrow wide : Limits) (extra : List String) : Halt → Option LimitFault → Prop
  | steps (limit : Nat) (h : narrow.maxSteps = some limit) (hw : wide.maxSteps ≠ some limit) :
    CutBy host narrow wide extra (.fault (.limit (.steps limit))) (some (.steps limit))
  | depth (h : narrow.maxCallDepth < wide.maxCallDepth) :
    CutBy host narrow wide extra (.fault (.limit (.callDepth narrow.maxCallDepth))) (some (.callDepth narrow.maxCallDepth))
  | answers (span : Span) (prompt : String) (h : extra ≠ []) :
    CutBy host narrow wide extra (.fault (.problem span (.noAnswer host.input prompt))) none

/-! ## Helpers: what one part of a run does -/

namespace TruncationAux

/-- What is done is not undone: events are only added, and the number of steps does not fall. -/
def Advances (m m' : State) : Prop :=
  m.events <:+ m'.events ∧
    (m.budget.steps ≤ Budget.maxCounted → m.budget.steps ≤ m'.budget.steps ∧ m'.budget.steps ≤ Budget.maxCounted)

/-- What advances twice advances. -/
theorem Advances.trans {m m' m'' : State} (h : Advances m m') (h' : Advances m' m'') : Advances m m'' := by
  refine ⟨h.1.trans h'.1, fun hm => ?_⟩
  obtain ⟨h1, h2⟩ := h.2 hm
  obtain ⟨h3, h4⟩ := h'.2 h2
  exact ⟨Nat.le_trans h1 h3, h4⟩

/-- A state with the same events and the same number of steps. -/
theorem Advances.of_eq {m m' : State} (he : m'.events = m.events) (hs : m'.budget.steps = m.budget.steps) :
    Advances m m' := by
  refine ⟨he ▸ List.suffix_refl _, fun hm => ?_⟩
  rw [hs]
  exact ⟨Nat.le_refl _, hm⟩

/-- A state with one more event. -/
theorem Advances.event {m m' : State} {event : Event} (he : m'.events = event :: m.events)
    (hs : m'.budget.steps = m.budget.steps) : Advances m m' := by
  refine ⟨he ▸ List.suffix_cons _ _, fun hm => ?_⟩
  rw [hs]
  exact ⟨Nat.le_refl _, hm⟩

/-! ### The primitive parts on a state -/

/-- A step without a time limit: it is counted, and it fails if there are more than the step limit allows. -/
theorem budget_step_untimed (b : Budget) (elapsed : Nat) (h : b.limits.timeLimit = none) :
    b.step elapsed = ({ b with steps := min (b.steps + 1) Budget.maxCounted },
      match b.limits.maxSteps with
      | some limit => if limit < min (b.steps + 1) Budget.maxCounted then some (.steps limit) else none
      | none => none) := by
  unfold Budget.step
  simp only [h]
  cases b.limits.maxSteps with
  | none => rfl
  | some limit =>
    simp only
    split <;> rfl

/-! ### Two runs side by side -/

variable {host : Host} {narrow wide : Limits} {extra : List String}

/-- How two parts of runs end: alike, or the first is cut and what it did is the beginning of what the second did. -/
def Alike (host : Host) (narrow wide : Limits) (extra : List String) {α : Type} :
    EStateM.Result Halt State α → EStateM.Result Halt State α → Prop
  | .ok a m, second => second = .ok a (m.grant wide extra) ∧ m.budget.limits = narrow
  | .error halt m, second =>
    (second = .error halt (m.grant wide extra) ∧ m.budget.limits = narrow) ∨
      (CutBy host narrow wide extra halt (Session.Failure.run halt).limit? ∧ Advances m (leaves second))

/-- A part of a run that advances, and does alike when it is granted more. -/
structure Truncates (host : Host) (narrow wide : Limits) (extra : List String) (α : Type) (r : Run α) : Prop where
  advances (m : State) : Advances m (leaves (r m))
  alike (m : State) (hm : m.budget.limits = narrow) : Alike host narrow wide extra (r m) (r (m.grant wide extra))

/-- A part of a run that leaves the budget, the answers and the events as they are, and does not depend on the budget and the
answers. -/
theorem Truncates.of_inert {α : Type} {r : Run α}
    (h : ∀ m, (∃ a scopes exports, r m = .ok a { m with scopes, exports } ∧
        ∀ limits more, r (m.grant limits more) = .ok a (State.grant limits more { m with scopes, exports })) ∨
      ∃ halt scopes exports, r m = .error halt { m with scopes, exports } ∧
        ∀ limits more, r (m.grant limits more) = .error halt (State.grant limits more { m with scopes, exports })) :
    Truncates host narrow wide extra α r := by
  constructor
  · intro m
    rcases h m with ⟨a, scopes, exports, hr, _⟩ | ⟨halt, scopes, exports, hr, _⟩
    · rw [hr]; exact .of_eq rfl rfl
    · rw [hr]; exact .of_eq rfl rfl
  · intro m hm
    rcases h m with ⟨a, scopes, exports, hr, hg⟩ | ⟨halt, scopes, exports, hr, hg⟩
    · rw [hr, hg]; exact ⟨rfl, hm⟩
    · rw [hr, hg]; exact Or.inl ⟨rfl, hm⟩

/-- A sequence of readers is cut off if both of them are: the second one begins only where the first one has ended alike. -/
theorem Truncates.bind {α β : Type} {r : Run α} {f : α → Run β} (hr : Truncates host narrow wide extra α r)
    (hf : ∀ a, Truncates host narrow wide extra β (f a)) : Truncates host narrow wide extra β (r >>= f) := by
  have advances : ∀ m, Advances m (leaves ((r >>= f) m)) := by
    intro m
    have h1 := hr.advances m
    cases h : r m with
    | ok a after =>
      rw [h] at h1
      rw [bind_ok h]
      exact h1.trans ((hf a).advances after)
    | error halt after =>
      rw [h] at h1
      rw [bind_error h]
      exact h1
  refine ⟨advances, fun m hm => ?_⟩
  have h1 := hr.alike m hm
  cases h : r m with
  | ok a after =>
    rw [h] at h1
    rw [bind_ok h, bind_ok h1.1]
    exact (hf a).alike after h1.2
  | error halt after =>
    rw [h] at h1
    rw [bind_error h]
    rcases h1 with ⟨h1, h2⟩ | ⟨hcut, h2⟩
    · rw [bind_error h1]
      exact Or.inl ⟨rfl, h2⟩
    · -- the second run goes on, and only adds to what it has done
      refine Or.inr ⟨hcut, ?_⟩
      cases hg : r (m.grant wide extra) with
      | ok a more =>
        rw [hg] at h2
        rw [bind_ok hg]
        exact h2.trans ((hf a).advances more)
      | error halt' more =>
        rw [hg] at h2
        rw [bind_error hg]
        exact h2

/-- What a step without a time limit does to a state. -/
theorem step_untimed (host : Host) (m : State) (h : m.budget.limits.timeLimit = none) :
    Machine.step host m =
      let after := { m with budget := { m.budget with steps := min (m.budget.steps + 1) Budget.maxCounted } }
      match m.budget.limits.maxSteps with
      | some limit =>
        if limit < after.budget.steps then .error (.fault (.limit (.steps limit))) after else .ok () after
      | none => .ok () after := by
  rw [step_apply, budget_step_untimed _ _ h]
  cases m.budget.limits.maxSteps with
  | none => rfl
  | some limit =>
    dsimp only
    by_cases hlimit : limit < min (m.budget.steps + 1) Budget.maxCounted
    · rw [if_pos hlimit, if_pos hlimit]
    · rw [if_neg hlimit, if_neg hlimit]

/-- A state after one more step. -/
theorem Advances.counted {m m' : State} (he : m'.events = m.events)
    (hs : m'.budget.steps = min (m.budget.steps + 1) Budget.maxCounted) : Advances m m' := by
  refine ⟨he ▸ List.suffix_refl _, fun hm => ?_⟩
  rw [hs]
  omega

/-- A step is counted in both runs; the larger limit is not exceeded before the smaller one. -/
theorem Truncates.step (hw : narrow.Wider wide) : Truncates host narrow wide extra Unit (Machine.step host) := by
  constructor
  · intro m
    rw [step_apply]
    have hs : (m.budget.step (host.clock (m.budget.steps + 1))).1.steps
        = min (m.budget.steps + 1) Budget.maxCounted := by
      unfold Budget.step
      dsimp only
      repeat' split
      all_goals rfl
    rcases h : m.budget.step (host.clock (m.budget.steps + 1)) with ⟨budget, _ | fault⟩
    all_goals
      rw [h] at hs
      exact .counted rfl hs
  · intro m hm
    have untimed : m.budget.limits.timeLimit = none := hm ▸ hw.untimed
    rw [step_untimed host m untimed, step_untimed host (m.grant wide extra) hw.untimedWide]
    have hg : (m.grant wide extra).budget.limits = wide := rfl
    rw [hm, hg]
    have wider := hw.steps
    -- Neither budget looks at a clock, so a step is a comparison of one count with two limits.
    cases hn : narrow.maxSteps with
    | none =>
      cases hl : wide.maxSteps with
      | none => exact ⟨rfl, hm⟩
      | some more =>
        obtain ⟨less, hless, _⟩ := wider more hl
        rw [hn] at hless
        nomatch hless
    | some limit =>
      dsimp only
      split
      · -- the first run fails; the second one does so as well if its limit is the same
        by_cases hsame : wide.maxSteps = some limit
        · rw [hsame]
          dsimp only
          rw [if_pos (by assumption)]
          exact Or.inl ⟨rfl, hm⟩
        · refine Or.inr ⟨.steps limit hn hsame, ?_⟩
          cases wide.maxSteps with
          | none => exact .of_eq rfl rfl
          | some more =>
            dsimp only
            split
            · exact .of_eq rfl rfl
            · exact .of_eq rfl rfl
      · cases hl : wide.maxSteps with
        | none => exact ⟨rfl, hm⟩
        | some more =>
          obtain ⟨less, hless, hle⟩ := wider more hl
          rw [hn] at hless
          obtain rfl := Option.some.inj hless
          dsimp only
          rw [if_neg (by
            have hg : (m.grant wide extra).budget.steps = m.budget.steps := rfl
            omega)]
          exact ⟨rfl, hm⟩

/-- An output is recorded alike under both limits. -/
theorem Truncates.output (v : Value) : Truncates host narrow wide extra Unit (record (.output v)) :=
  ⟨fun _ => .event rfl rfl, fun _ hm => ⟨rfl, hm⟩⟩

/-- Both runs show the prompt; the first one may lack the answer. -/
theorem Truncates.ask (span : Span) (prompt : String) :
    Truncates host narrow wide extra String (Machine.ask host span prompt) := by
  constructor
  · intro m
    rw [ask_apply]
    cases m.answers <;> exact .event rfl rfl
  · intro m hm
    rw [ask_apply, ask_apply]
    have hg : (m.grant wide extra).answers = m.answers ++ extra := rfl
    rw [hg]
    cases ha : m.answers with
    | cons answer rest => exact ⟨by simp [State.grant], hm⟩
    | nil =>
      cases extra with
      | nil => exact Or.inl ⟨by simp [State.grant, ha], hm⟩
      | cons answer rest => exact Or.inr ⟨.answers span prompt nofun, .of_eq rfl rfl⟩

/-- A failure is the same under both limits. -/
theorem Truncates.failAt {α : Type} (span : Span) (problem : Problem) :
    Truncates host narrow wide extra α (Machine.failAt span problem) :=
  .of_inert fun m => Or.inr ⟨_, m.scopes, m.exports, rfl, fun _ _ => rfl⟩

/-- A variable is read alike under both limits. -/
theorem Truncates.readVariable (span : Span) (name : String) :
    Truncates host narrow wide extra Value (Machine.readVariable span name) := by
  refine .of_inert fun m => ?_
  have hg : ∀ limits more, (m.grant limits more).scopes = m.scopes := fun _ _ => rfl
  simp only [readVariable_apply, hg]
  rcases findSlot? name m.scopes with _ | _ | v | f
  · exact Or.inr ⟨_, m.scopes, m.exports, rfl, fun _ _ => rfl⟩
  · exact Or.inr ⟨_, m.scopes, m.exports, rfl, fun _ _ => rfl⟩
  · exact Or.inl ⟨v, m.scopes, m.exports, rfl, fun _ _ => rfl⟩
  · exact Or.inr ⟨_, m.scopes, m.exports, rfl, fun _ _ => rfl⟩

/-- A function is read alike under both limits. -/
theorem Truncates.readFunction (span : Span) (name : String) :
    Truncates host narrow wide extra Program.Function (Machine.readFunction span name) := by
  refine .of_inert fun m => ?_
  have hg : ∀ limits more, (m.grant limits more).scopes = m.scopes := fun _ _ => rfl
  simp only [readFunction_apply, hg]
  rcases findSlot? name m.scopes with _ | _ | v | f
  · exact Or.inr ⟨_, m.scopes, m.exports, rfl, fun _ _ => rfl⟩
  · exact Or.inr ⟨_, m.scopes, m.exports, rfl, fun _ _ => rfl⟩
  · exact Or.inr ⟨_, m.scopes, m.exports, rfl, fun _ _ => rfl⟩
  · exact Or.inl ⟨f, m.scopes, m.exports, rfl, fun _ _ => rfl⟩

/-- A name is bound alike under both limits. -/
theorem Truncates.bindName (name : String) (slot : Slot) :
    Truncates host narrow wide extra Unit (Machine.bind name slot) := by
  refine .of_inert fun m => ?_
  simp only [bindName_apply]
  exact Or.inl ⟨(), _, m.exports, rfl, fun _ _ => rfl⟩

/-- A variable is assigned alike under both limits. -/
theorem Truncates.assignVariable (span : Span) (name : String) (path : List Value) (v : Value) :
    Truncates host narrow wide extra Unit (Machine.assignVariable span name path v) := by
  refine .of_inert fun m => ?_
  have hg : ∀ limits more, (m.grant limits more).scopes = m.scopes := fun _ _ => rfl
  simp only [assignVariable_apply, hg]
  rcases findSlot? name m.scopes with _ | _ | current | f
  · exact Or.inr ⟨_, m.scopes, m.exports, rfl, fun _ _ => rfl⟩
  · exact Or.inr ⟨_, m.scopes, m.exports, rfl, fun _ _ => rfl⟩
  · simp only
    rcases (Value.modifyPath (fun _ => v) path current).2 with _ | fault
    · exact Or.inl ⟨(), _, m.exports, rfl, fun _ _ => rfl⟩
    · exact Or.inr ⟨_, _, m.exports, rfl, fun _ _ => rfl⟩
  · exact Or.inr ⟨_, m.scopes, m.exports, rfl, fun _ _ => rfl⟩

/-- The exports are assigned alike under both limits. -/
theorem Truncates.assignExports (span : Span) (path : List Value) (v : Value) :
    Truncates host narrow wide extra Unit (Machine.assignExports span path v) := by
  refine .of_inert fun m => ?_
  have hg : ∀ limits more, (m.grant limits more).exports = m.exports := fun _ _ => rfl
  simp only [assignExports_apply, hg]
  rcases assignedExports path v m.exports with ⟨exports, _ | problem⟩
  · exact Or.inl ⟨(), m.scopes, exports, rfl, fun _ _ => rfl⟩
  · exact Or.inr ⟨_, m.scopes, exports, rfl, fun _ _ => rfl⟩

/-- Two parts of runs that end alike do so also when something is changed at their end, unless it is what they are compared by. -/
theorem Alike.leaving {α : Type} {first second : EStateM.Result Halt State α} (f : State → State)
    (hg : ∀ m, (f m).grant wide extra = f (m.grant wide extra)) (hl : ∀ m, (f m).budget.limits = m.budget.limits)
    (he : ∀ m, (f m).events = m.events) (hs : ∀ m, (f m).budget.steps = m.budget.steps)
    (h : Alike host narrow wide extra first second) :
    Alike host narrow wide extra (Machine.leaving f first) (Machine.leaving f second) := by
  cases first with
  | ok a m =>
    obtain ⟨rfl, hm⟩ := h
    exact ⟨by simp only [Machine.leaving, hg], (hl m).trans hm⟩
  | error halt m =>
    rcases h with ⟨rfl, hm⟩ | ⟨hcut, hm⟩
    · exact Or.inl ⟨by simp only [Machine.leaving, hg], (hl m).trans hm⟩
    · refine Or.inr ⟨hcut, ?_⟩
      rw [leaves_leaving]
      unfold Advances at hm ⊢
      rwa [he, he, hs, hs]

/-- A scope around a run changes nothing about where it is cut off. -/
theorem Truncates.inScope {α : Type} {body : Run α} (scope : Scope) (h : Truncates host narrow wide extra α body) :
    Truncates host narrow wide extra α (Machine.inScope scope body) := by
  constructor
  · intro m
    rw [inScope_apply, leaves_leaving]
    exact (h.advances { m with scopes := scope :: m.scopes }).trans (.of_eq rfl rfl)
  · intro m hm
    rw [inScope_apply, inScope_apply]
    exact .leaving State.dropScope (fun _ => rfl) (fun _ => rfl) (fun _ => rfl) (fun _ => rfl)
      (h.alike { m with scopes := scope :: m.scopes } hm)

/-- A call is entered in both runs; the larger depth is not reached before the smaller one. -/
theorem Truncates.inCall {α : Type} {body : Run α} (hw : narrow.Wider wide) (name : String) (frame : Scope)
    (h : Truncates host narrow wide extra α body) :
    Truncates host narrow wide extra α (Machine.inCall name frame body) := by
  have advances : ∀ m, Advances m (leaves (Machine.inCall name frame body m)) := by
    intro m
    rw [inCall_apply]
    split
    · exact .of_eq rfl rfl
    · rw [leaves_leaving]
      exact Advances.trans (Advances.trans (.of_eq rfl rfl) (h.advances (m.called name frame))) (.of_eq rfl rfl)
  refine ⟨advances, fun m hm => ?_⟩
  have hdepth := hw.depth
  have hl : (m.grant wide extra).budget.limits = wide := rfl
  have hd : (m.grant wide extra).budget.depth = m.budget.depth := rfl
  rw [inCall_apply, hm]
  by_cases hn : narrow.maxCallDepth ≤ m.budget.depth
  · rw [if_pos hn]
    by_cases hsame : narrow.maxCallDepth = wide.maxCallDepth
    · rw [inCall_apply, hl, hd, if_pos (hsame ▸ hn), hsame]
      exact Or.inl ⟨rfl, hm⟩
    · -- the first run is refused, and the second one either as well or goes on
      exact Or.inr ⟨.depth (Nat.lt_of_le_of_ne hdepth hsame), Advances.trans (.of_eq rfl rfl) (advances (m.grant wide extra))⟩
  · rw [inCall_apply, hl, hd, if_neg hn, if_neg (by omega)]
    exact .leaving _ (fun _ => rfl) (fun _ => rfl) (fun _ => rfl) (fun _ => rfl) (h.alike (m.called name frame) hm)

/-- Every part of a run is only truncated. -/
theorem truncates_closed (hw : narrow.Wider wide) : Closed host (Truncates host narrow wide extra) where
  pure a := .of_inert fun m => Or.inl ⟨a, m.scopes, m.exports, rfl, fun _ _ => rfl⟩
  bind := .bind
  outOfFuel := .of_inert fun m => Or.inr ⟨_, m.scopes, m.exports, rfl, fun _ _ => rfl⟩
  failAt := .failAt
  exports := .of_inert fun m => Or.inl ⟨m.exports, m.scopes, m.exports, rfl, fun _ _ => rfl⟩
  step := .step hw
  output := .output
  ask := .ask
  readVariable := .readVariable
  readFunction := .readFunction
  bindName := .bindName
  assignVariable := .assignVariable
  assignExports := .assignExports
  inScope := .inScope
  inCall := .inCall hw

/-! ### The step limit alone -/

/-- The steps taken are within the step limit. -/
def Within (limits : Limits) (m : State) : Prop := ∀ limit, limits.maxSteps = some limit → m.budget.steps ≤ limit

/-- How a part of a run ends under some limits: within the step limit, or with the fault of that limit at the first step beyond it. -/
def Counts (limits : Limits) {α : Type} : EStateM.Result Halt State α → Prop
  | .ok _ m => m.budget.limits = limits ∧ Within limits m
  | .error halt m => m.budget.limits = limits ∧
    ((∃ limit, limits.maxSteps = some limit ∧ halt = .fault (.limit (.steps limit)) ∧ m.budget.steps = limit + 1) ∨
      (∀ limit, halt ≠ .fault (.limit (.steps limit))) ∧ Within limits m)

/-- A part of a run that keeps to the step limit. -/
def Counted (limits : Limits) (α : Type) (r : Run α) : Prop :=
  ∀ m : State, m.budget.limits = limits → Within limits m → Counts limits (r m)

/-- A part of a run that leaves the budget as it is and, if it fails, does so at a place of the program. -/
theorem Counted.of_inert {limits : Limits} {α : Type} {r : Run α}
    (h : ∀ m, (∃ a after, r m = .ok a after ∧ after.budget = m.budget) ∨
      ∃ span problem after, r m = .error (.fault (.problem span problem)) after ∧ after.budget = m.budget) :
    Counted limits α r := by
  intro m hm hw
  rcases h m with ⟨a, after, hr, hb⟩ | ⟨span, problem, after, hr, hb⟩
  · rw [hr]
    exact ⟨hb ▸ hm, fun limit hl => hb ▸ hw limit hl⟩
  · rw [hr]
    exact ⟨hb ▸ hm, Or.inr ⟨nofun, fun limit hl => hb ▸ hw limit hl⟩⟩

/-- The steps of a sequence are those of both parts. -/
theorem Counted.bind {limits : Limits} {α β : Type} {r : Run α} {f : α → Run β} (hr : Counted limits α r)
    (hf : ∀ a, Counted limits β (f a)) : Counted limits β (r >>= f) := by
  intro m hm hw
  have h := hr m hm hw
  cases hrun : r m with
  | ok a after =>
    rw [hrun] at h
    rw [bind_ok hrun]
    exact hf a after h.1 h.2
  | error halt after =>
    rw [hrun] at h
    rw [bind_error hrun]
    exact h

/-- Taking a step counts it. -/
theorem Counted.step {limits : Limits} (hl : limits.timeLimit = none) : Counted limits Unit (Machine.step host) := by
  intro m hm hw
  rw [step_untimed host m (hm ▸ hl)]
  dsimp only
  cases hn : m.budget.limits.maxSteps with
  | none =>
    refine ⟨hm, fun limit hlimit => ?_⟩
    rw [hm, hlimit] at hn
    nomatch hn
  | some limit =>
    rw [hm] at hn
    have hle := hw limit hn
    dsimp only
    split
    · refine ⟨hm, Or.inl ⟨limit, hn, rfl, ?_⟩⟩
      dsimp only
      omega
    · refine ⟨hm, fun limit' hlimit' => ?_⟩
      rw [hn] at hlimit'
      obtain rfl := Option.some.inj hlimit'
      dsimp only
      omega

/-- Leaving a scope or a call takes no step. -/
theorem Counts.leaving {limits : Limits} {α : Type} {r : EStateM.Result Halt State α} (f : State → State)
    (hl : ∀ m, (f m).budget.limits = m.budget.limits) (hs : ∀ m, (f m).budget.steps = m.budget.steps)
    (h : Counts limits r) : Counts limits (Machine.leaving f r) := by
  cases r with
  | ok a m => exact ⟨(hl m).trans h.1, fun limit hlimit => hs m ▸ h.2 limit hlimit⟩
  | error halt m =>
    refine ⟨(hl m).trans h.1, ?_⟩
    rcases h.2 with ⟨limit, hlimit, hhalt, hsteps⟩ | ⟨hhalt, hw⟩
    · exact Or.inl ⟨limit, hlimit, hhalt, (hs m).trans hsteps⟩
    · exact Or.inr ⟨hhalt, fun limit hlimit => hs m ▸ hw limit hlimit⟩

/-- A call takes the steps of its body. -/
theorem Counted.inCall {limits : Limits} {α : Type} {body : Run α} (name : String) (frame : Scope)
    (h : Counted limits α body) : Counted limits α (Machine.inCall name frame body) := by
  intro m hm hw
  rw [inCall_apply]
  split
  · exact ⟨hm, Or.inr ⟨nofun, hw⟩⟩
  · exact .leaving _ (fun _ => rfl) (fun _ => rfl) (h (m.called name frame) hm hw)

/-- A scope takes the steps of its body. -/
theorem Counted.inScope {limits : Limits} {α : Type} {body : Run α} (scope : Scope) (h : Counted limits α body) :
    Counted limits α (Machine.inScope scope body) := by
  intro m hm hw
  rw [inScope_apply]
  exact .leaving State.dropScope (fun _ => rfl) (fun _ => rfl) (h { m with scopes := scope :: m.scopes } hm hw)

theorem Counted.ask {limits : Limits} (span : Span) (prompt : String) :
    Counted limits String (Machine.ask host span prompt) := by
  refine .of_inert fun m => ?_
  rw [ask_apply]
  cases m.answers with
  | nil => exact Or.inr ⟨_, _, _, rfl, rfl⟩
  | cons answer rest => exact Or.inl ⟨_, _, rfl, rfl⟩

theorem Counted.readVariable {limits : Limits} (span : Span) (name : String) :
    Counted limits Value (Machine.readVariable span name) := by
  refine .of_inert fun m => ?_
  rw [readVariable_apply]
  rcases findSlot? name m.scopes with _ | _ | v | f
  case some.value => exact Or.inl ⟨_, _, rfl, rfl⟩
  all_goals exact Or.inr ⟨_, _, _, rfl, rfl⟩

theorem Counted.readFunction {limits : Limits} (span : Span) (name : String) :
    Counted limits Program.Function (Machine.readFunction span name) := by
  refine .of_inert fun m => ?_
  rw [readFunction_apply]
  rcases findSlot? name m.scopes with _ | _ | v | f
  case some.function => exact Or.inl ⟨_, _, rfl, rfl⟩
  all_goals exact Or.inr ⟨_, _, _, rfl, rfl⟩

theorem Counted.assignVariable {limits : Limits} (span : Span) (name : String) (path : List Value) (v : Value) :
    Counted limits Unit (Machine.assignVariable span name path v) := by
  refine .of_inert fun m => ?_
  rw [assignVariable_apply]
  rcases findSlot? name m.scopes with _ | _ | current | f
  case some.value =>
    dsimp only
    rcases (Value.modifyPath (fun _ => v) path current).2 with _ | fault
    · exact Or.inl ⟨_, _, rfl, rfl⟩
    · exact Or.inr ⟨_, _, _, rfl, rfl⟩
  all_goals exact Or.inr ⟨_, _, _, rfl, rfl⟩

theorem Counted.assignExports {limits : Limits} (span : Span) (path : List Value) (v : Value) :
    Counted limits Unit (Machine.assignExports span path v) := by
  refine .of_inert fun m => ?_
  rw [assignExports_apply]
  rcases assignedExports path v m.exports with ⟨exports, _ | problem⟩
  · exact Or.inl ⟨_, _, rfl, rfl⟩
  · exact Or.inr ⟨_, _, _, rfl, rfl⟩

/-- Every part of a run keeps to the step limit. -/
theorem counted_closed {limits : Limits} (hl : limits.timeLimit = none) : Closed host (Counted limits) where
  pure a := .of_inert fun m => Or.inl ⟨a, m, rfl, rfl⟩
  bind := .bind
  outOfFuel := fun _ hm hw => ⟨hm, Or.inr ⟨nofun, hw⟩⟩
  failAt span problem := .of_inert fun m => Or.inr ⟨span, problem, m, rfl, rfl⟩
  exports := .of_inert fun m => Or.inl ⟨m.exports, m, rfl, rfl⟩
  step := .step hl
  output _ := .of_inert fun _ => Or.inl ⟨(), _, rfl, rfl⟩
  ask := .ask
  readVariable := .readVariable
  readFunction := .readFunction
  bindName name slot := .of_inert fun m => Or.inl ⟨(), _, bindName_apply name slot m, rfl⟩
  assignVariable := .assignVariable
  assignExports := .assignExports
  inScope := .inScope
  inCall := .inCall

/-! ### Whole runs -/

/-- A run of a program is a part of a run like any other. -/
theorem runWith_of_closed {P : (α : Type) → Run α → Prop} (h : Closed host P) (strayFlow : P Unit (throw (.fault .strayFlow)))
    (fuel : Nat) (program : Program) : P Unit (runWith host fuel program) :=
  h.guarded.runWith strayFlow fuel fun _ _ => trivial

/-- A whole run is cut off by the narrow limits or goes on alike under the wide ones. -/
theorem runWith_truncates (hw : narrow.Wider wide) (fuel : Nat) (program : Program) :
    Truncates host narrow wide extra Unit (runWith host fuel program) :=
  runWith_of_closed (truncates_closed hw) (.of_inert fun m => Or.inr ⟨_, m.scopes, m.exports, rfl, fun _ _ => rfl⟩) fuel program

/-- A whole run counts its steps, or stops at the limit. -/
theorem runWith_counted {limits : Limits} (hl : limits.timeLimit = none) (fuel : Nat) (program : Program) :
    Counted limits Unit (runWith host fuel program) :=
  runWith_of_closed (counted_closed hl) (fun _ hm hw => ⟨hm, Or.inr ⟨nofun, hw⟩⟩) fuel program

/-- Wide limits and further answers, granted at the start, are the start with them. -/
theorem grant_start (limits : Limits) (answers : List String) :
    (State.start limits answers).grant wide extra = .start wide (answers ++ extra) := rfl

/-- The result of a part of a run. -/
def resultOf : EStateM.Result Halt State Unit → Result
  | .ok _ after => ⟨after, none⟩
  | .error halt after => ⟨after, some halt⟩

/-- The state of a result is the one that the run leaves. -/
@[simp] theorem resultOf_state (r : EStateM.Result Halt State Unit) : (resultOf r).state = leaves r := by
  cases r <;> rfl

/-- What is observed of a run is its result from the start. -/
theorem runFor_eq (fuel : Nat) (limits : Limits) (answers : List String) (program : Program) :
    runFor host fuel limits answers program = resultOf (runWith host fuel program (.start limits answers)) := by
  unfold runFor resultOf
  rfl

/-- Where the states advance, what has been observed is the beginning of what will be. -/
theorem Advances.begins {first second : Result} (h : Advances first.state second.state) : first.Begins second := by
  have history : first.state.history <+: second.state.history := List.reverse_prefix.mpr h.1
  exact ⟨history, history.filterMap _, history.filterMap _⟩

/-- What is said of two parts of runs that end alike, for their results. -/
theorem Alike.results {first second : EStateM.Result Halt State Unit} (h : Alike host narrow wide extra first second) :
    ((resultOf first).Agrees (resultOf second) ∧ leaves second = (leaves first).grant wide extra) ∨
      ∃ halt, first = .error halt (leaves first) ∧ CutBy host narrow wide extra halt (Session.Failure.run halt).limit? ∧
        Advances (leaves first) (leaves second) := by
  cases first with
  | ok a m =>
    obtain ⟨rfl, _⟩ := h
    exact Or.inl ⟨⟨rfl, rfl, rfl, rfl⟩, rfl⟩
  | error halt m =>
    rcases h with ⟨rfl, _⟩ | ⟨hcut, hadv⟩
    · exact Or.inl ⟨⟨rfl, rfl, rfl, rfl⟩, rfl⟩
    · exact Or.inr ⟨halt, rfl, hcut, hadv⟩

/-- What decides between a run with a step limit and the same run without: the number of steps of the latter. -/
theorem counted_results {n : Nat} {first second : EStateM.Result Halt State Unit}
    (h : Alike host { narrow with maxSteps := some n } { narrow with maxSteps := none } [] first second)
    (hmax : (leaves first).budget.steps ≤ Budget.maxCounted) (hlimited : Counts { narrow with maxSteps := some n } first)
    (hfree : Counts { narrow with maxSteps := none } second) :
    ((leaves second).budget.steps ≤ n → (resultOf first).Agrees (resultOf second)) ∧
      (n < (leaves second).budget.steps → (resultOf first).halt = some (.fault (.limit (.steps n))) ∧
        (leaves first).budget.steps = n + 1 ∧ (resultOf first).Begins (resultOf second)) := by
  rcases h.results with ⟨hagrees, hsame⟩ | ⟨halt, hfirst, hcut, hadv⟩
  · -- the run is not cut, so it has not hit its step limit
    have hle : (leaves second).budget.steps ≤ n := by
      have hsteps : (leaves second).budget.steps = (leaves first).budget.steps := by rw [hsame]; rfl
      rw [hsteps]
      cases first with
      | ok a m => exact hlimited.2 n rfl
      | error halt m =>
        rcases hlimited.2 with ⟨limit, hlimit, hhalt, _⟩ | ⟨_, hwithin⟩
        · have hhalts := hagrees.halt
          cases second with
          | ok a m' => nomatch hhalts
          | error halt' m' =>
            obtain rfl : halt = halt' := Option.some.inj hhalts
            rcases hfree.2 with ⟨_, hnone, _⟩ | ⟨hnot, _⟩
            · nomatch hnone
            · exact absurd hhalt (hnot limit)
        · exact hwithin n rfl
    exact ⟨fun _ => hagrees, fun hlt => absurd hle (Nat.not_le.mpr hlt)⟩
  · rw [hfirst] at hlimited
    have hhalt : halt = .fault (.limit (.steps n)) := by
      generalize (Session.Failure.run halt).limit? = visible at hcut
      cases hcut with
      | steps limit hlimit _ => rw [Option.some.inj hlimit]
      | depth hdepth => exact absurd hdepth (Nat.lt_irrefl _)
      | answers span prompt hne => exact absurd rfl hne
    have hsteps : (leaves first).budget.steps = n + 1 := by
      rcases hlimited.2 with ⟨limit, hlimit, _, hsteps⟩ | ⟨hnot, _⟩
      · rw [hsteps, ← Option.some.inj hlimit]
      · exact absurd hhalt (hnot n)
    have hbegins : (resultOf first).Begins (resultOf second) := Advances.begins (by simpa only [resultOf_state] using hadv)
    have hlater := (hadv.2 hmax).1
    refine ⟨fun hle => by omega, fun _ => ⟨?_, hsteps, hbegins⟩⟩
    rw [hfirst, hhalt]
    rfl

end TruncationAux

/-! ## The statement -/

open TruncationAux

/-- Of two runs of a program without a time limit, the second of which is granted more steps, deeper calls or further answers,
either both show the same, or the first one is cut by what it is not granted and shows the beginning of what the second one shows.
A limit of `n` steps, where `n` is below the greatest count, does not matter to a run of at most `n` steps, and cuts a longer one at
its step `n + 1`. Up to there the count of the unlimited run is exact, so it tells whether more than `n` steps are taken. A limit
that is no smaller than the greatest count matters to no run. -/
theorem runFor_granted_more (host : Host) (fuel : Nat) (program : Program) (narrow wide : Limits) (answers extra : List String)
    (hw : narrow.Wider wide) :
    ((runFor host fuel narrow answers program).Agrees (runFor host fuel wide (answers ++ extra) program) ∨
      ∃ halt, (runFor host fuel narrow answers program).halt = some halt ∧
        CutBy host narrow wide extra halt (Session.Failure.run halt).limit? ∧
        (runFor host fuel narrow answers program).Begins (runFor host fuel wide (answers ++ extra) program)) ∧
    ∀ n : Nat,
      let limited := runFor host fuel { narrow with maxSteps := some n } answers program
      let free := runFor host fuel { narrow with maxSteps := none } answers program
      (n < Budget.maxCounted → (free.state.budget.steps ≤ n → limited.Agrees free) ∧
        (n < free.state.budget.steps → limited.halt = some (.fault (.limit (.steps n))) ∧ limited.state.budget.steps = n + 1 ∧
          limited.Begins free)) ∧
      (Budget.maxCounted ≤ n → limited.Agrees free) := by
  constructor
  · have htruncates : Truncates host narrow wide extra Unit (runWith host fuel program) := runWith_truncates hw fuel program
    have h := (htruncates.alike (.start narrow answers) rfl).results
    rw [grant_start] at h
    rw [runFor_eq, runFor_eq]
    rcases h with ⟨hagrees, _⟩ | ⟨halt, hfirst, hcut, hadv⟩
    · exact Or.inl hagrees
    · refine Or.inr ⟨halt, ?_, hcut, Advances.begins (by simpa only [resultOf_state] using hadv)⟩
      rw [hfirst]
      rfl
  · intro n limited free
    have wider : Limits.Wider { narrow with maxSteps := some n } { narrow with maxSteps := none } :=
      ⟨hw.untimed, hw.untimed, nofun, Nat.le_refl _⟩
    have htruncates : Truncates host { narrow with maxSteps := some n } { narrow with maxSteps := none } [] Unit
        (runWith host fuel program) := runWith_truncates wider fuel program
    have halike := htruncates.alike (.start { narrow with maxSteps := some n } answers) rfl
    rw [grant_start, List.append_nil] at halike
    have hmax := ((htruncates.advances (.start { narrow with maxSteps := some n } answers)).2 (Nat.zero_le _)).2
    have hfreeMax := ((htruncates.advances (.start { narrow with maxSteps := none } answers)).2 (Nat.zero_le _)).2
    have hlimited : Counted { narrow with maxSteps := some n } Unit (runWith host fuel program) :=
      runWith_counted wider.untimed fuel program
    have hfree : Counted { narrow with maxSteps := none } Unit (runWith host fuel program) :=
      runWith_counted wider.untimedWide fuel program
    have hresults := counted_results halike hmax (hlimited (.start _ answers) rfl fun limit _ => Nat.zero_le limit)
      (hfree (.start _ answers) rfl nofun)
    simp only [limited, free, runFor_eq, resultOf_state]
    exact ⟨fun _ => hresults, fun hn => hresults.1 (Nat.le_trans hfreeMax hn)⟩

/-- A loop that writes at each turn, with a limit of three steps: it is cut at its fourth step, and what it has written is the
beginning of what it goes on to write without the limit. -/
theorem runFor_granted_more_endless :
    let host : Host := ⟨.scripted, fun _ => 0⟩
    let turn : Program.Block := .mk [] [] [.expr (.output ⟨1, 1, 0, 0⟩ (.const (.bool true)))]
    let endless : Program := ⟨none, .mk [] [] [.while_ ⟨1, 1, 0, 0⟩ (.const (.bool true)) turn]⟩
    let limits : Limits := ⟨some 3, 8, none, 256⟩
    limits.Wider { limits with maxSteps := none } ∧ 3 < (runFor host 12 { limits with maxSteps := none } [] endless).state.budget.steps ∧
      (runFor host 12 limits [] endless).halt = some (.fault (.limit (.steps 3))) ∧
      (runFor host 12 limits [] endless).state.budget.steps = 4 ∧
      (runFor host 12 limits [] endless).Begins (runFor host 12 { limits with maxSteps := none } [] endless) := by
  intro host turn endless limits
  have wider : limits.Wider { limits with maxSteps := none } := ⟨rfl, rfl, nofun, Nat.le_refl _⟩
  have longer : 3 < (runFor host 12 { limits with maxSteps := none } [] endless).state.budget.steps := by decide +kernel
  clear_value endless
  have h := runFor_granted_more host 12 endless limits { limits with maxSteps := none } [] [] wider
  exact ⟨wider, longer, ((h.2 3).1 (by decide)).2 longer⟩

/-! ## The greatest limit -/

namespace TruncationAux

/-- A statement that writes `true`. -/
def writing (span : Span) : Program.Statement := .expr (.output span (.const (.bool true)))

/-- A loop that writes `true` at each turn. -/
def writingLoop (span inner : Span) : Program.Statement := .while_ span (.const (.bool true)) (.mk [] [] [writing inner])

/-- The body of the loop writes `true`, and is not stopped. -/
theorem writing_unstopped {m : State} (h : Unstopped m) (host : Host) (fuel : Nat) (span : Span) :
    ∃ after, Machine.execBlock host (fuel + 5) (.mk [] [] [writing span]) m = .ok .normal after ∧ Unstopped after ∧
      after.events = .output (.bool true) :: m.events := by
  have hentered : Unstopped { m with scopes := [] :: m.scopes } := ⟨h.limit, h.untimed⟩
  obtain ⟨stepped, hstep, hstepped, hevents⟩ := hentered.step host
  have hexec : Machine.exec host (fuel + 3) (writing span) { m with scopes := [] :: m.scopes } =
      .ok .normal { stepped with events := .output (.bool true) :: stepped.events } := by
    unfold writing Machine.exec
    rw [bind_ok hstep]
    rfl
  have hall : Machine.execAll host (fuel + 4) [writing span] { m with scopes := [] :: m.scopes } =
      .ok .normal { stepped with events := .output (.bool true) :: stepped.events } := bind_ok hexec _
  refine ⟨State.dropScope { stepped with events := .output (.bool true) :: stepped.events }, ?_, ?_, ?_⟩
  · rw [Machine.execBlock, inScope_apply]
    exact (congrArg (leaving State.dropScope) hall).trans rfl
  · exact ⟨hstepped.limit, hstepped.untimed⟩
  · exact congrArg (Event.output (.bool true) :: ·) hevents

/-- With too little fuel for a turn the loop stops in its body. -/
theorem writingLoop_last {m : State} (h : Unstopped m) (host : Host) (span : Span) :
    ∃ after, Machine.loop host 5 (.const (.bool true)) (.mk [] [] [writing span]) m = .error .outOfFuel after ∧
      after.events = m.events := by
  have hentered : Unstopped { m with scopes := [] :: m.scopes } := ⟨h.limit, h.untimed⟩
  obtain ⟨stepped, hstep, -, hevents⟩ := hentered.step host
  have hexec : Machine.exec host 2 (writing span) { m with scopes := [] :: m.scopes } = .error .outOfFuel stepped := by
    unfold writing Machine.exec
    rw [bind_ok hstep]
    rfl
  have hall : Machine.execAll host 3 [writing span] { m with scopes := [] :: m.scopes } = .error .outOfFuel stepped :=
    bind_error hexec _
  have hbody : Machine.execBlock host 4 (.mk [] [] [writing span]) m = .error .outOfFuel stepped.dropScope := by
    rw [Machine.execBlock, inScope_apply]
    exact (congrArg (leaving State.dropScope) hall).trans rfl
  have hcond : Machine.eval host 4 (.const (.bool true)) m = .ok (.bool true) m := rfl
  refine ⟨stepped.dropScope, ?_, hevents⟩
  rw [Machine.loop.eq_2, bind_ok hcond]
  exact bind_error hbody _

/-- With fuel for `n` turns the loop writes `n` values. The induction is on the turns: each is a body and a step. -/
theorem writingLoop_unstopped {m : State} (h : Unstopped m) (host : Host) (n : Nat) (span : Span) :
    ∃ after, Machine.loop host (n + 5) (.const (.bool true)) (.mk [] [] [writing span]) m = .error .outOfFuel after ∧
      n + (Event.outputs m.events).length ≤ (Event.outputs after.events).length := by
  induction n generalizing m with
  | zero =>
    obtain ⟨after, hlast, hevents⟩ := writingLoop_last h host span
    exact ⟨after, hlast, by rw [hevents, Nat.zero_add]⟩
  | succ n ih =>
    obtain ⟨written, hbody, hwritten, hevents⟩ := writing_unstopped h host n span
    obtain ⟨stepped, hstep, hstepped, hsame⟩ := hwritten.step host
    obtain ⟨after, hlater, hlength⟩ := ih hstepped
    have hcond : Machine.eval host (n + 5) (.const (.bool true)) m = .ok (.bool true) m := rfl
    refine ⟨after, ?_, ?_⟩
    · rw [show n + 1 + 5 = n + 5 + 1 from rfl, Machine.loop.eq_2, bind_ok hcond]
      exact (bind_ok hbody _).trans ((bind_ok hstep _).trans hlater)
    · rw [hsame, hevents] at hlength
      change n + ((Event.outputs m.events).length + 1) ≤ _ at hlength
      omega

/-- A run with the greatest step limit does not fail for its steps: they are counted up to the limit and no further. -/
theorem runFor_greatest {limits : Limits} (hmax : limits.maxSteps = some Budget.maxCounted) (htime : limits.timeLimit = none)
    (host : Host) (fuel : Nat) (answers : List String) (program : Program) (limit : Nat) :
    (runFor host fuel limits answers program).halt ≠ some (.fault (.limit (.steps limit))) := by
  have hwider : Limits.Wider limits limits := ⟨htime, htime, fun limit h => ⟨limit, h, Nat.le_refl limit⟩, Nat.le_refl _⟩
  have htruncates : Truncates host limits limits [] Unit (runWith host fuel program) := runWith_truncates hwider fuel program
  have hcounted : Counted limits Unit (runWith host fuel program) := runWith_counted htime fuel program
  have hadvances := htruncates.advances (.start limits answers)
  have hkept := hcounted (.start limits answers) rfl fun _ _ => Nat.zero_le _
  have hsteps := (hadvances.2 (Nat.zero_le _)).2
  intro hhalt
  rw [runFor_eq] at hhalt
  generalize runWith host fuel program (.start limits answers) = r at hkept hsteps hhalt
  cases r with
  | ok a m => nomatch hhalt
  | error halt m =>
    rcases hkept.2 with ⟨limit', hlimit', -, hover⟩ | ⟨hnot, -⟩
    · obtain rfl := Option.some.inj (hmax.symm.trans hlimit')
      exact absurd (hover ▸ hsteps) (Nat.not_succ_le_self _)
    · exact hnot limit (Option.some.inj hhalt)

/-- A program of nothing but the loop writes `n` values with fuel for `n` turns. -/
theorem runFor_writingLoop {limits : Limits} (hmax : limits.maxSteps = some Budget.maxCounted) (htime : limits.timeLimit = none)
    (host : Host) (name : Option String) (span inner : Span) (n : Nat) :
    n ≤ (Event.outputs (runFor host (n + 8) limits [] ⟨name, .mk [] [] [writingLoop span inner]⟩).state.history).length := by
  have hentered : Unstopped { State.start limits [] with scopes := [] :: (State.start limits []).scopes } := ⟨hmax, htime⟩
  obtain ⟨stepped, hstep, hstepped, hevents⟩ := hentered.step host
  obtain ⟨after, hloop, hlength⟩ := writingLoop_unstopped hstepped host n inner
  have hexec : Machine.exec host (n + 6) (writingLoop span inner)
      { State.start limits [] with scopes := [] :: (State.start limits []).scopes } = .error .outOfFuel after := by
    unfold writingLoop Machine.exec
    rw [bind_ok hstep]
    exact hloop
  have hall : Machine.execAll host (n + 7) [writingLoop span inner]
      { State.start limits [] with scopes := [] :: (State.start limits []).scopes } = .error .outOfFuel after := bind_error hexec _
  have hblock : Machine.execBlock host (n + 8) (.mk [] [] [writingLoop span inner]) (.start limits []) =
      .error .outOfFuel after.dropScope := by
    rw [Machine.execBlock, inScope_apply]
    exact (congrArg (leaving State.dropScope) hall).trans rfl
  have hrun : runFor host (n + 8) limits [] ⟨name, .mk [] [] [writingLoop span inner]⟩ = ⟨after.dropScope, some .outOfFuel⟩ := by
    unfold runFor runWith
    rw [bind_error hblock]
  have hhistory : Event.outputs after.events.reverse = (Event.outputs after.events).reverse := List.filterMap_reverse
  rw [hrun]
  change n ≤ (Event.outputs after.events.reverse).length
  rw [hhistory, List.length_reverse]
  exact Nat.le_trans (Nat.le_add_right n _) hlength

end TruncationAux

open TruncationAux in
set_option maxRecDepth 2048 in
/-- With the largest unsigned 64-bit integer as its step limit a run goes on past the limit: a loop never fails for it, and writes any
number of values, each with a statement of its own, which is a step. -/
theorem runFor_granted_more_not_greatest :
    ∃ program, Program.ofSource ⟨"loop", "use host as kp;while(true){kp.output(true);}"⟩ = .ok program ∧
      let result := fun fuel => runFor ⟨.scripted, fun _ => 0⟩ fuel ⟨some 18446744073709551615, 64, none, 256⟩ [] program
      (∀ fuel limit, (result fuel).halt ≠ some (.fault (.limit (.steps limit)))) ∧
        ∀ n, ∃ fuel, n ≤ (Event.outputs (result fuel).state.history).length := by
  have hcompiles : Program.ofSource ⟨"loop", "use host as kp;while(true){kp.output(true);}"⟩ =
      .ok ⟨some "kp", .mk [] [] [writingLoop ⟨1, 16, 15, 44⟩ ⟨1, 37, 27, 42⟩]⟩ := by cbv
  refine ⟨_, hcompiles, fun fuel limit => ?_, fun n => ⟨n + 8, ?_⟩⟩
  · exact runFor_greatest rfl rfl _ fuel [] _ limit
  · exact runFor_writingLoop rfl rfl _ _ _ _ n

end HostScript.Machine
