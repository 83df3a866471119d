import HostScript.Budget

/-!
# A budget with its clock

`Budget.step` is told how much time has elapsed. A meter knows when its run has started and reads the clock by itself, and only where
the time has to be checked. The clock is an action of any monad, so that reading it and not reading it are told apart.
-/

namespace HostScript

/-- A budget, and what the clock has shown when it was made. -/
structure Meter where
  budget : Budget
  origin : Nat
  deriving DecidableEq, Repr

namespace Meter

variable {m : Type → Type} [Monad m]

/-- The meter of a run that starts when the clock shows the given time. -/
def start (limits : Limits) (origin : Nat) : Meter := ⟨.start limits, origin⟩

/-- Counts a step towards the next reading of the clock. With the last step of an interval the clock is read, and the time since
the start compared with the time limit; a clock that shows less than at the start counts as the start. -/
def checkTime (now : m Nat) (t : Meter) : m (Option LimitFault × Meter) :=
  match t.budget.limits.timeLimit with
  | none => return (none, t)
  | some limit =>
    if t.budget.sinceCheck + 1 < t.budget.limits.checkInterval then
      return (none, { t with budget.sinceCheck := t.budget.sinceCheck + 1 })
    else do
      let elapsed := (← now) - t.origin
      return (if limit < elapsed then some (.time elapsed limit) else none, { t with budget.sinceCheck := 0 })

/-- Takes a step. The time is not checked in a step beyond the step limit. -/
def step (now : m Nat) (t : Meter) : m (Option LimitFault × Meter) :=
  let t := { t with budget.steps := min (t.budget.steps + 1) Budget.maxCounted }
  match t.budget.limits.maxSteps with
  | some limit => if limit < t.budget.steps then return (some (.steps limit), t) else t.checkTime now
  | none => t.checkTime now

/-- With a clock that shows a time without any effect, a step is that of the budget with the time since the start. -/
theorem step_pure [LawfulMonad m] (time : Nat) (t : Meter) :
    t.step (pure time : m Nat) =
      pure ((t.budget.step (time - t.origin)).2, ⟨(t.budget.step (time - t.origin)).1, t.origin⟩) := by
  obtain ⟨⟨⟨maxSteps, maxCallDepth, timeLimit, checkInterval⟩, steps, depth, sinceCheck⟩, origin⟩ := t
  unfold step checkTime Budget.step
  cases timeLimit with
  | none =>
    cases maxSteps with
    | none => rfl
    | some allowed =>
      dsimp only
      split <;> rfl
  | some limit =>
    simp only [pure_bind]
    cases maxSteps with
    | none =>
      dsimp only
      split <;> rfl
    | some allowed =>
      dsimp only
      split
      · rfl
      · split <;> rfl

end Meter

end HostScript
