import Mathlib
import HostScript.Meter

/-!
# What the calls of a meter give

The k-th step that a run takes, whatever has happened in the steps before it, in closed form (`step_closed`). It fails beyond the step
limit; otherwise it reads the clock if there is a time limit and an interval ends, and fails if too much time has elapsed; in all other
cases it succeeds. The counters carry this (`Tallied`): all steps are counted, also those that fail, and the steps since the last
reading are the remainder of their number by the interval.
-/

namespace HostScript.Meter

variable {limits : Limits} {origin k : Nat} {t : Meter} {m : Type → Type} [Monad m]

/-! ## The counters -/

/-- The largest unsigned 32-bit integer, up to which an interval is counted. -/
def maxInterval : Nat := 0xFFFFFFFF

/-- The k-th step is not beyond the step limit. -/
def Allowed (limits : Limits) (k : Nat) : Prop := ∀ n, limits.maxSteps = some n → k ≤ n

/-- The time is checked in the k-th step: it is allowed, there is a time limit, and an interval ends with it. -/
def Checks (limits : Limits) (k : Nat) : Prop := Allowed limits k ∧ limits.timeLimit.isSome ∧ limits.checkInterval ∣ k

/-- The meter of a run after k steps. Steps beyond the step limit do not count towards the next reading of the clock. -/
structure Tallied (limits : Limits) (origin k : Nat) (t : Meter) : Prop where
  sameLimits : t.budget.limits = limits
  sameOrigin : t.origin = origin
  steps : t.budget.steps = k
  within : t.budget.sinceCheck < limits.checkInterval
  remainder : limits.timeLimit.isSome → Allowed limits k → t.budget.sinceCheck = k % limits.checkInterval

theorem tallied_start (h : 0 < limits.checkInterval) (origin : Nat) : Tallied limits origin 0 (start limits origin) :=
  ⟨rfl, rfl, rfl, h, fun _ _ => (Nat.zero_mod _).symm⟩

theorem Allowed.of_succ (h : Allowed limits (k + 1)) : Allowed limits k := fun n hn => Nat.le_of_succ_le (h n hn)

/-- Before the end of an interval the remainder is one more with each step. -/
theorem succ_mod_of_lt {interval : Nat} (h : k % interval + 1 < interval) : (k + 1) % interval = k % interval + 1 := by
  rw [← Nat.mod_add_mod, Nat.mod_eq_of_lt h]

/-- An interval ends with the step that makes it up. -/
theorem dvd_succ_iff {interval : Nat} (h : 0 < interval) : interval ∣ k + 1 ↔ ¬ k % interval + 1 < interval := by
  constructor
  · intro hdvd hlt
    have hmod := Nat.mod_eq_zero_of_dvd hdvd
    rw [succ_mod_of_lt hlt] at hmod
    exact Nat.succ_ne_zero _ hmod
  · intro hlt
    have hfull : k % interval + 1 = interval := by
      have := Nat.mod_lt k h
      omega
    refine Nat.dvd_of_mod_eq_zero ?_
    rw [← Nat.mod_add_mod, hfull, Nat.mod_self]

/-! ## The three kinds of steps -/

namespace Tallied

/-- The counter of steps has not come to its end. -/
theorem counted (h : Tallied limits origin k t) (hk : k < Budget.maxCounted) :
    min (t.budget.steps + 1) Budget.maxCounted = k + 1 := by
  rw [h.steps]
  exact Nat.min_eq_left hk

/-- A step beyond the step limit fails, and the clock is not read. -/
theorem step_beyond (h : Tallied limits origin k t) (hk : k < Budget.maxCounted) {n : Nat} (hn : limits.maxSteps = some n)
    (hbeyond : n < k + 1) :
    ∃ t', Tallied limits origin (k + 1) t' ∧ ∀ now : m Nat, t.step now = pure (some (.steps n), t') := by
  refine ⟨{ t with budget.steps := k + 1 }, ⟨h.sameLimits, h.sameOrigin, rfl, h.within, fun _ hallowed => ?_⟩, fun now => ?_⟩
  · exact absurd (hallowed n hn) (Nat.not_le.mpr hbeyond)
  · unfold step
    simp only [h.counted hk, h.sameLimits, hn, if_pos hbeyond]

/-- A step that is allowed goes on to the time. -/
theorem step_allowed (h : Tallied limits origin k t) (hk : k < Budget.maxCounted) (hallowed : Allowed limits (k + 1)) (now : m Nat) :
    t.step now = checkTime now { t with budget.steps := k + 1 } := by
  unfold step
  simp only [h.counted hk]
  split
  · rename_i n hn
    rw [if_neg (Nat.not_lt.mpr (hallowed n (h.sameLimits ▸ hn)))]
  · rfl

/-- A step in which the time is checked reads the clock once, and fails if more time has elapsed than is allowed. -/
theorem step_checks (h : Tallied limits origin k t) (hk : k < Budget.maxCounted) (hchecks : Checks limits (k + 1)) {limit : Nat}
    (hlimit : limits.timeLimit = some limit) :
    ∃ t', Tallied limits origin (k + 1) t' ∧ ∀ now : m Nat, t.step now =
      now >>= fun time => pure (if limit < time - origin then some (.time (time - origin) limit) else none, t') := by
  obtain ⟨hallowed, htimed, hdvd⟩ := hchecks
  have hpos : 0 < limits.checkInterval := Nat.zero_lt_of_lt h.within
  have hends : ¬ t.budget.sinceCheck + 1 < limits.checkInterval := by
    rw [h.remainder htimed hallowed.of_succ]
    exact (dvd_succ_iff hpos).mp hdvd
  refine ⟨{ t with budget.steps := k + 1, budget.sinceCheck := 0 }, ⟨h.sameLimits, h.sameOrigin, rfl, hpos, fun _ _ => ?_⟩,
    fun now => ?_⟩
  · exact (Nat.mod_eq_zero_of_dvd hdvd).symm
  · rw [h.step_allowed hk hallowed, checkTime]
    simp only [h.sameLimits, hlimit, if_neg hends, h.sameOrigin]

/-- Any other step succeeds, and the clock is not read. -/
theorem step_plain (h : Tallied limits origin k t) (hk : k < Budget.maxCounted) (hallowed : Allowed limits (k + 1))
    (hchecks : ¬ Checks limits (k + 1)) :
    ∃ t', Tallied limits origin (k + 1) t' ∧ ∀ now : m Nat, t.step now = pure (none, t') := by
  have hpos : 0 < limits.checkInterval := Nat.zero_lt_of_lt h.within
  cases hlimit : limits.timeLimit with
  | none =>
    refine ⟨{ t with budget.steps := k + 1 }, ⟨h.sameLimits, h.sameOrigin, rfl, h.within, fun htimed => ?_⟩, fun now => ?_⟩
    · rw [hlimit] at htimed
      nomatch htimed
    · rw [h.step_allowed hk hallowed, checkTime]
      simp only [h.sameLimits, hlimit]
  | some limit =>
    have htimed : limits.timeLimit.isSome := by
      rw [hlimit]
      rfl
    have hgoes : t.budget.sinceCheck + 1 < limits.checkInterval := by
      by_contra hends
      rw [h.remainder htimed hallowed.of_succ] at hends
      exact hchecks ⟨hallowed, htimed, (dvd_succ_iff hpos).mpr hends⟩
    refine ⟨{ t with budget.steps := k + 1, budget.sinceCheck := t.budget.sinceCheck + 1 },
      ⟨h.sameLimits, h.sameOrigin, rfl, hgoes, fun _ _ => ?_⟩, fun now => ?_⟩
    · rw [h.remainder htimed hallowed.of_succ] at hgoes
      rw [h.remainder htimed hallowed.of_succ, succ_mod_of_lt hgoes]
    · rw [h.step_allowed hk hallowed, checkTime]
      simp only [h.sameLimits, hlimit, if_pos hgoes]

end Tallied

/-! ## Calls seen from outside -/

/-- A clock that shows a time and counts how often it is read. -/
def counting (time : Nat) : StateM Nat Nat := fun reads => (time, reads + 1)

/-- What is seen of a step: how it ends, how often it has read the clock, and the meter that it leaves. -/
structure Call where
  fault : Option LimitFault
  reads : Nat
  after : Meter
  deriving DecidableEq, Repr

/-- Takes a step while the clock shows a time. -/
def call (time : Nat) (t : Meter) : Call :=
  let ((fault, after), reads) := (t.step (counting time)).run 0
  ⟨fault, reads, after⟩

/-- The meter after a number of calls. The clock shows a time at each of them; whether a call fails makes no difference to the next. -/
def afterCalls (clock : Nat → Nat) (t : Meter) : Nat → Meter
  | 0 => t
  | k + 1 => ((t.afterCalls clock k).call (clock k)).after

/-- A call in which the clock is not read. -/
theorem call_unread {fault : Option LimitFault} {t' : Meter} (h : ∀ now : StateM Nat Nat, t.step now = pure (fault, t')) (time : Nat) :
    t.call time = ⟨fault, 0, t'⟩ := by
  unfold call
  rw [h]
  rfl

/-- A call in which the clock is read once. -/
theorem call_read {fault : Nat → Option LimitFault} {t' : Meter}
    (h : ∀ now : StateM Nat Nat, t.step now = now >>= fun time => pure (fault time, t')) (time : Nat) :
    t.call time = ⟨fault time, 1, t'⟩ := by
  unfold call
  rw [h]
  rfl

/-- The k-th call in closed form, for the time that has elapsed when it is made. -/
structure Call.Closed (limits : Limits) (elapsed k : Nat) (c : Call) : Prop where
  /-- It fails for its number exactly beyond the step limit. -/
  beyond : ∀ n, c.fault = some (.steps n) ↔ limits.maxSteps = some n ∧ n < k
  /-- It reads the clock, once, exactly if the time is checked in it. -/
  reads : c.reads = 1 ∧ Checks limits k ∨ c.reads = 0 ∧ ¬ Checks limits k
  /-- It fails for the time exactly if it has read the clock and more has elapsed than is allowed. -/
  late : ∀ time limit, c.fault = some (.time time limit) ↔
    c.reads = 1 ∧ limits.timeLimit = some limit ∧ time = elapsed ∧ limit < elapsed
  /-- It succeeds in all other cases. -/
  succeeds : c.fault = none ↔ (∀ n, limits.maxSteps = some n → k ≤ n) ∧
    (c.reads = 1 → ∀ limit, limits.timeLimit = some limit → elapsed ≤ limit)
  /-- It is counted in any case. -/
  counted : c.after.budget.steps = k

/-- What a step gives with a clock without effects, the budget gives with the time that has elapsed. -/
theorem budget_step {time : Nat} {fault : Option LimitFault} {t' : Meter}
    (h : t.step (pure time : StateM Nat Nat) = pure (fault, t')) : t.budget.step (time - t.origin) = (t'.budget, fault) := by
  rw [step_pure] at h
  have hpair : ((t.budget.step (time - t.origin)).2, (⟨(t.budget.step (time - t.origin)).1, t.origin⟩ : Meter)) = (fault, t') :=
    congrArg Prod.fst (congrFun h 0)
  obtain ⟨rfl, rfl⟩ := Prod.mk.inj hpair
  rfl

/-- The closed form of a call beyond the step limit. -/
theorem Call.closed_beyond {elapsed n : Nat} (hn : limits.maxSteps = some n) (hbeyond : n < k) (ht : t.budget.steps = k) :
    Call.Closed limits elapsed k ⟨some (.steps n), 0, t⟩ where
  beyond n' := by
    constructor
    · intro hfault
      obtain rfl := LimitFault.steps.inj (Option.some.inj hfault)
      exact ⟨hn, hbeyond⟩
    · intro hn'
      rw [Option.some.inj (hn.symm.trans hn'.1)]
  reads := .inr ⟨rfl, fun hchecks => Nat.not_lt.mpr (hchecks.1 n hn) hbeyond⟩
  late _ _ := ⟨nofun, fun hread => nomatch hread.1⟩
  succeeds := ⟨nofun, fun hallowed => absurd (hallowed.1 n hn) (Nat.not_le.mpr hbeyond)⟩
  counted := ht

/-- The closed form of a call that reads the clock. -/
theorem Call.closed_checks {elapsed limit : Nat} (hchecks : Checks limits k) (hlimit : limits.timeLimit = some limit)
    (ht : t.budget.steps = k) :
    Call.Closed limits elapsed k ⟨if limit < elapsed then some (.time elapsed limit) else none, 1, t⟩ where
  beyond n := by
    constructor
    · intro hfault
      dsimp only at hfault
      split at hfault <;> nomatch hfault
    · intro hn
      exact absurd (hchecks.1 n hn.1) (Nat.not_le.mpr hn.2)
  reads := .inl ⟨rfl, hchecks⟩
  late time limit' := by
    constructor
    · intro hfault
      dsimp only at hfault
      split at hfault
      · rename_i hlate
        obtain ⟨rfl, rfl⟩ := LimitFault.time.inj (Option.some.inj hfault)
        exact ⟨rfl, hlimit, rfl, hlate⟩
      · nomatch hfault
    · rintro ⟨-, hlimit', rfl, hlate⟩
      obtain rfl := Option.some.inj (hlimit.symm.trans hlimit')
      exact if_pos hlate
  succeeds := by
    constructor
    · intro hfault
      refine ⟨hchecks.1, fun _ limit' hlimit' => ?_⟩
      obtain rfl := Option.some.inj (hlimit.symm.trans hlimit')
      by_contra hlate
      dsimp only at hfault
      rw [if_pos (Nat.lt_of_not_le hlate)] at hfault
      nomatch hfault
    · intro hfine
      exact if_neg (Nat.not_lt.mpr (hfine.2 rfl limit hlimit))
  counted := ht

/-- The closed form of any other call. -/
theorem Call.closed_plain {elapsed : Nat} (hallowed : Allowed limits k) (hchecks : ¬ Checks limits k) (ht : t.budget.steps = k) :
    Call.Closed limits elapsed k ⟨none, 0, t⟩ where
  beyond n := ⟨nofun, fun hn => absurd (hallowed n hn.1) (Nat.not_le.mpr hn.2)⟩
  reads := .inr ⟨rfl, hchecks⟩
  late _ _ := ⟨nofun, fun hread => nomatch hread.1⟩
  succeeds := ⟨fun _ => ⟨hallowed, nofun⟩, fun _ => rfl⟩
  counted := ht

/-- The next call of a run is as its number says, and what it leaves is tallied again. -/
theorem Tallied.call_closed (h : Tallied limits origin k t) (hk : k < Budget.maxCounted) (time : Nat) :
    Tallied limits origin (k + 1) (t.call time).after ∧ (t.call time).Closed limits (time - origin) (k + 1) ∧
      t.budget.step (time - origin) = ((t.call time).after.budget, (t.call time).fault) := by
  rw [← h.sameOrigin]
  by_cases hallowed : Allowed limits (k + 1)
  · by_cases hchecks : Checks limits (k + 1)
    · obtain ⟨limit, hlimit⟩ := Option.isSome_iff_exists.mp hchecks.2.1
      obtain ⟨t', ht', hstep⟩ := h.step_checks (m := StateM Nat) hk hchecks hlimit
      rw [← h.sameOrigin] at ht' hstep
      have hcall : t.call time = ⟨if limit < time - t.origin then some (.time (time - t.origin) limit) else none, 1, t'⟩ :=
        call_read hstep time
      rw [hcall]
      exact ⟨ht', Call.closed_checks hchecks hlimit ht'.steps, budget_step ((hstep (pure time)).trans (pure_bind time _))⟩
    · obtain ⟨t', ht', hstep⟩ := h.step_plain (m := StateM Nat) hk hallowed hchecks
      rw [← h.sameOrigin] at ht'
      rw [call_unread hstep]
      exact ⟨ht', Call.closed_plain hallowed hchecks ht'.steps, budget_step (hstep (pure time))⟩
  · obtain ⟨n, hn, hbeyond⟩ : ∃ n, limits.maxSteps = some n ∧ n < k + 1 := by
      unfold Allowed at hallowed
      push Not at hallowed
      exact hallowed
    obtain ⟨t', ht', hstep⟩ := h.step_beyond (m := StateM Nat) hk hn hbeyond
    rw [← h.sameOrigin] at ht'
    rw [call_unread hstep]
    exact ⟨ht', Call.closed_beyond hn hbeyond ht'.steps, budget_step (hstep (pure time))⟩

/-! ## All calls of a run -/

theorem tallied_afterCalls (hpos : 0 < limits.checkInterval) (origin : Nat) (clock : Nat → Nat) (hk : k ≤ Budget.maxCounted) :
    Tallied limits origin k ((start limits origin).afterCalls clock k) := by
  induction k with
  | zero => exact tallied_start hpos origin
  | succ k ih => exact ((ih (Nat.le_of_succ_le hk)).call_closed hk (clock k)).1

/-- Each of fewer than `2 ^ 64` calls is in closed form, whatever the clock shows and whatever the calls before it have given. It gives
what the step of the budget gives for the time that has elapsed. No counter comes to its end: in front of each call, both can be
counted on in the unsigned integers that hold them. -/
theorem step_closed (hpos : 0 < limits.checkInterval) (hinterval : limits.checkInterval ≤ maxInterval) (origin : Nat)
    (clock : Nat → Nat) (hk : k < Budget.maxCounted) :
    let before := (start limits origin).afterCalls clock k
    let call := before.call (clock k)
    call.Closed limits (clock k - origin) (k + 1) ∧
      before.budget.step (clock k - origin) = (call.after.budget, call.fault) ∧
      before.budget.steps + 1 ≤ Budget.maxCounted ∧ before.budget.sinceCheck + 1 ≤ maxInterval := by
  intro before call
  have hbefore : Tallied limits origin k before := tallied_afterCalls hpos origin clock (Nat.le_of_lt hk)
  obtain ⟨-, hclosed, hbudget⟩ := hbefore.call_closed hk (clock k)
  refine ⟨hclosed, hbudget, ?_, ?_⟩
  · rw [hbefore.steps]
    exact hk
  · have := hbefore.within
    omega

/-- A clock that is checked with every fourth step. The eighth call fails for the time, though the fourth has done so before. -/
theorem step_closed_late :
    let before := (start ⟨some 9, 64, some 30, 4⟩ 50).afterCalls (fun i => 40 * i) 7
    let call := before.call 280
    (0 < 4 ∧ 4 ≤ maxInterval ∧ 7 < Budget.maxCounted) ∧ call.fault = some (.time 230 30) ∧
      call.Closed ⟨some 9, 64, some 30, 4⟩ (280 - 50) 8 ∧
      before.budget.step (280 - 50) = (call.after.budget, call.fault) ∧
      before.budget.steps + 1 ≤ Budget.maxCounted ∧ before.budget.sinceCheck + 1 ≤ maxInterval :=
  ⟨by decide, rfl, @step_closed ⟨some 9, 64, some 30, 4⟩ 7 (by decide) (by decide) 50 (fun i => 40 * i) (by decide)⟩

end HostScript.Meter
