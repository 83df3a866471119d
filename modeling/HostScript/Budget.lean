/-!
# The budget of a run

How much work a run may do: a number of steps, a depth of calls, and a time. The clock is read only once in a number of steps.
Times are in nanoseconds since the start of the run, without the time spent waiting for input.
-/

namespace HostScript

/-- The ceilings of a run. -/
structure Limits where
  /-- The greatest number of steps, if there is one. -/
  maxSteps : Option Nat
  /-- The greatest number of calls open at once. -/
  maxCallDepth : Nat
  /-- The greatest time, if there is one. -/
  timeLimit : Option Nat
  /-- The number of steps from one reading of the clock to the next. -/
  checkInterval : Nat
  deriving DecidableEq, Repr

/-- The ceiling that a run has hit. -/
inductive LimitFault
  | steps (limit : Nat)
  | callDepth (limit : Nat)
  | time (elapsed limit : Nat)
  deriving DecidableEq, Repr

/-- The number of nanoseconds in a millisecond. -/
def nanosPerMilli : Nat := 1000000

/-- The wording of a limit that has been hit. -/
def LimitFault.message : LimitFault → String
  | .steps limit => s!"execution exceeded step limit (limit={limit})"
  | .callDepth limit => s!"execution exceeded call depth limit (limit={limit})"
  | .time elapsed limit =>
    s!"execution exceeded time limit (elapsed={elapsed / nanosPerMilli}ms, limit={limit / nanosPerMilli}ms)"

/-- The work that a run has done and the ceilings on it. -/
structure Budget where
  limits : Limits
  /-- The steps taken. -/
  steps : Nat
  /-- The calls that are open. -/
  depth : Nat
  /-- The steps taken since the clock was read last. -/
  sinceCheck : Nat
  deriving DecidableEq, Repr

namespace Budget

/-- The budget at the start of a run. -/
def start (limits : Limits) : Budget := ⟨limits, 0, 0, 0⟩

/-- The counter of steps stays at the largest unsigned 64-bit integer. -/
def maxCounted : Nat := 0xFFFFFFFFFFFFFFFF

/-- Takes a step: counts it, and tells which limit it exceeds. The step limit is checked first. The clock reading `elapsed` is
used only when `checkInterval` steps have been taken since the last one. -/
def step (b : Budget) (elapsed : Nat) : Budget × Option LimitFault :=
  let b := { b with steps := min (b.steps + 1) maxCounted }
  let checkTime : Budget × Option LimitFault :=
    match b.limits.timeLimit with
    | none => (b, none)
    | some limit =>
      if b.sinceCheck + 1 < b.limits.checkInterval then ({ b with sinceCheck := b.sinceCheck + 1 }, none)
      else ({ b with sinceCheck := 0 }, if limit < elapsed then some (.time elapsed limit) else none)
  match b.limits.maxSteps with
  | some limit => if limit < b.steps then (b, some (.steps limit)) else checkTime
  | none => checkTime

/-- Opens a call, unless as many as allowed are open. -/
def enterCall (b : Budget) : Except LimitFault Budget :=
  if b.limits.maxCallDepth ≤ b.depth then .error (.callDepth b.limits.maxCallDepth)
  else .ok { b with depth := b.depth + 1 }

/-- Closes a call. -/
def leaveCall (b : Budget) : Budget := { b with depth := b.depth - 1 }

end Budget

end HostScript
