import Mathlib
import HostScript.Session
import HostScript.Proofs.Machine.Guarded
import HostScript.Proofs.Machine.Slots
import HostScript.Proofs.Program.Capability

/-!
# Programs without capabilities

A program that has no node for the host leaves it alone: nothing is exchanged with it and nothing is exported, however a run ends
(`runFor_isolated`). A script reaches the host through the alias of its import alone, so one without an import has no such node
(`capabilities_imported`).
-/

namespace HostScript.Machine

open Program (Function Node capabilities usesOf aliasesOf)

/-- A node that does nothing with the host. -/
def Silent (node : Node) : Prop := node.capability? = none

/-- A slot whose function, if it has one, does nothing with the host. -/
def Slot.Silent : Slot → Prop
  | .function f => Admits Machine.Silent f.nodes
  | _ => True

theorem Slot.Silent.value (v : Value) : Slot.Silent (.value v) := trivial

/-- What a part of a run has left as it was, with functions in scope that do nothing with the host. -/
structure State.Isolated (m after : State) : Prop where
  scopes : AllSlots Slot.Silent after.scopes
  exports : after.exports = m.exports
  events : after.events = m.events

/-- A part of a run that leaves the host alone, however it ends. -/
def Isolates (α : Type) (r : Run α) : Prop := ∀ m : State, AllSlots Slot.Silent m.scopes → m.Isolated (leaves (r m))

/-- A part that changes nothing. -/
theorem Isolates.of_inert {α : Type} {r : Run α} (h : ∀ m, leaves (r m) = m) : Isolates α r := by
  intro m hm
  rw [h m]
  exact ⟨hm, rfl, rfl⟩

/-- The parts that do something with the host stand for nodes of their own; all others leave it alone. -/
theorem isolates_guarded (host : Host) : Guarded host Silent Isolates where
  pure a := .of_inert fun _ => rfl
  bind {α β r f} hr hf := by
    intro m hm
    have hfirst := hr m hm
    cases hrun : r m with
    | ok a after =>
      rw [hrun] at hfirst
      rw [bind_ok hrun]
      have hsecond := hf a after hfirst.scopes
      exact ⟨hsecond.scopes, hsecond.exports.trans hfirst.exports, hsecond.events.trans hfirst.events⟩
    | error halt after =>
      rw [hrun] at hfirst
      rw [bind_error hrun]
      exact hfirst
  outOfFuel := .of_inert fun _ => rfl
  failAt span problem := .of_inert fun _ => rfl
  exports h := nomatch h
  step := by
    intro m hm
    rw [step_apply]
    rcases m.budget.step (host.clock (m.budget.steps + 1)) with ⟨budget, _ | fault⟩ <;> exact ⟨hm, rfl, rfl⟩
  output h := nomatch h
  ask h := nomatch h
  readVariable span name := by
    refine .of_inert fun m => ?_
    rw [readVariable_apply]
    rcases findSlot? name m.scopes with _ | _ | _ | _ <;> rfl
  called {α} span name {f} hf := by
    intro m hm
    have hread := readFunction_apply span name m
    cases hslot : findSlot? name m.scopes with
    | none =>
      rw [hslot] at hread
      rw [bind_error hread]
      exact ⟨hm, rfl, rfl⟩
    | some slot =>
      cases slot with
      | function g =>
        rw [hslot] at hread
        rw [bind_ok hread]
        exact hf g (hm.found hslot) m hm
      | uninitialized | value v =>
        rw [hslot] at hread
        rw [bind_error hread]
        exact ⟨hm, rfl, rfl⟩
  bindName name v := by
    intro m hm
    rw [bindName_boundScopes]
    exact ⟨hm.bound (.value v) name, rfl, rfl⟩
  assignVariable span name path v := by
    intro m hm
    rw [assignVariable_apply]
    rcases findSlot? name m.scopes with _ | _ | current | _
    · exact ⟨hm, rfl, rfl⟩
    · exact ⟨hm, rfl, rfl⟩
    · dsimp only
      split <;> exact ⟨hm.replaced (.value _) name, rfl, rfl⟩
    · exact ⟨hm, rfl, rfl⟩
  assignExports h := nomatch h
  inScope {α body block} hblock h := by
    intro m hm
    have hscope : Scope.All Slot.Silent (bindBlock block []) := Scope.All.nil.bindBlock trivial hblock.functions
    have hbody := h { m with scopes := bindBlock block [] :: m.scopes } (List.forall_mem_cons.mpr ⟨hscope, hm⟩)
    rw [inScope_apply, leaves_leaving]
    exact ⟨hbody.scopes.tail, hbody.exports, hbody.events⟩
  inCall {α body} name g hg args h := by
    intro m hm
    have hframe : Scope.All Slot.Silent (callFrame g args) := Scope.All.callFrame trivial (fun _ _ => trivial) hg.body.functions
    have hbody := h (m.called name (callFrame g args)) (List.forall_mem_cons.mpr ⟨hframe, hm.drop _⟩)
    rw [inCall_apply]
    split
    · exact ⟨hm, rfl, rfl⟩
    · rw [leaves_leaving]
      exact ⟨hm.restored hbody.scopes _, hbody.exports, hbody.events⟩

/-! ## Whole runs -/

variable {program : Program}

theorem capabilities_eq_nil : capabilities program = [] ↔ Admits Silent program.body.nodes := List.filterMap_eq_nil_iff

theorem runFor_leaves (host : Host) (fuel : Nat) (limits : Limits) (answers : List String) (program : Program) :
    (runFor host fuel limits answers program).state = leaves (runWith host fuel program (.start limits answers)) := by
  unfold runFor
  cases runWith host fuel program (.start limits answers) <;> rfl

/-- A run of a program without capabilities exchanges nothing with the host and exports nothing, however it ends. -/
theorem runFor_isolated (h : capabilities program = []) (host : Host) (fuel : Nat) (limits : Limits) (answers : List String) :
    (runFor host fuel limits answers program).state.events = [] ∧
      (runFor host fuel limits answers program).state.exports = Value.emptyObject := by
  have hrun : Isolates Unit (runWith host fuel program) :=
    (isolates_guarded host).runWith (.of_inert fun _ => rfl) fuel (capabilities_eq_nil.mp h)
  obtain ⟨-, hexports, hevents⟩ := hrun (.start limits answers) (List.forall_mem_nil _)
  rw [runFor_leaves]
  exact ⟨hevents, hexports⟩

/-- A session of a program without capabilities writes nothing, asks nothing, and returns an empty object if it succeeds. -/
theorem execute_isolated (h : capabilities program = []) (config : Config) (host : Host) (answers : List String) (script : Source)
    (log : List Session.Record) :
    (Session.execute config host answers script program log).events = [] ∧
      ∀ v, (Session.execute config host answers script program log).outcome = .ok v → v = Value.emptyObject := by
  obtain ⟨hevents, hexports⟩ := runFor_isolated h host ampleFuel config.limits answers
  rw [← run_eq_runFor] at hevents hexports
  have hhistory : (run host config.limits answers program).state.history = [] := by rw [State.history, hevents, List.reverse_nil]
  unfold Session.execute
  dsimp only
  cases hhalt : (run host config.limits answers program).halt with
  | some halt => exact ⟨hhistory, nofun⟩
  | none =>
    refine ⟨hhistory, fun v hv => ?_⟩
    obtain rfl := Except.ok.inj hv
    exact hexports

/-- A check of what a text is read as and resolved to. -/
theorem ofSource_check (source : Source) (check : Script.Module → Program → Bool)
    (h : ((Script.Module.ofSource source).toOption.any fun m => (Program.ofModule m).toOption.any (check m)) = true) :
    ∃ m program, Script.Module.ofSource source = .ok m ∧ Program.ofModule m = .ok program ∧ check m program = true := by
  cases hm : Script.Module.ofSource source with
  | error fault =>
    rw [hm] at h
    contradiction
  | ok m =>
    rw [hm] at h
    change (Program.ofModule m).toOption.any (check m) = true at h
    cases hprogram : Program.ofModule m with
    | error fault =>
      rw [hprogram] at h
      contradiction
    | ok program =>
      rw [hprogram] at h
      exact ⟨m, program, rfl, hprogram, h⟩

/-- A script reaches the host through the alias of its import alone. Its uses of the host and the capabilities of the program stand in a
one-to-one correspondence, the alias stands nowhere else as a variable, and no name of the program is the alias. Without an import there are
none, and the program leaves the host alone in every run. -/
theorem capabilities_imported {m : Script.Module} (h : Program.ofModule m = .ok program)
    (hbuiltin : ∀ name, program.host = some name → Builtin.ofName? name = none) :
    program.host = m.host.map (·.host.name) ∧ Program.Corresponds program.host (usesOf m) (capabilities program) ∧
      aliasesOf m = (usesOf m).map Program.Use.base ∧ (∀ name, program.host = some name → name ∉ Program.names program) ∧
      (m.host.isNone → usesOf m = [] ∧ capabilities program = [] ∧
        (∀ (host : Host) (fuel : Nat) (limits : Limits) (answers : List String),
          (runFor host fuel limits answers program).state.events = [] ∧
            (runFor host fuel limits answers program).state.exports = Value.emptyObject) ∧
        ∀ (config : Config) (host : Host) (answers : List String) (script : Source) (log : List Session.Record),
          let report := Session.execute config host answers script program log
          report.outputs = [] ∧ report.prompts = [] ∧ ∀ v, report.outcome = .ok v → v = Value.emptyObject) := by
  obtain ⟨hhost, hfaithful⟩ := Program.ofModule_faithful h hbuiltin
  have hcorresponds := hfaithful.corresponds
  have hbases := hfaithful.bases
  refine ⟨hhost, ?_, ?_, ?_, fun hnone => ?_⟩
  · rw [hhost] at hcorresponds ⊢
    exact hcorresponds
  · rw [hhost] at hbases
    exact hbases
  · intro name hname hmem
    obtain ⟨node, hnode, hnamed⟩ := List.mem_flatMap.mp hmem
    exact hfaithful.names node hnode name hnamed hname
  · rw [Option.isNone_iff_eq_none] at hnone
    rw [hhost, hnone] at hcorresponds
    obtain ⟨huses, hcapabilities⟩ := hcorresponds.no_host
    refine ⟨?_, hcapabilities, runFor_isolated hcapabilities, fun config host answers script log => ?_⟩
    · rw [usesOf, hnone]
      exact huses
    · obtain ⟨hevents, houtcome⟩ := execute_isolated hcapabilities config host answers script log
      refine ⟨?_, ?_, houtcome⟩
      · rw [Session.Report.outputs, hevents]
        rfl
      · rw [Session.Report.prompts, hevents]
        rfl

/-- Output in a function, and the exports at a key that is asked for: three uses of the host, and three capabilities. A script that imports
no host may call a variable as others call theirs. -/
theorem capabilities_imported_nested :
    (∃ m program, Script.Module.ofSource ⟨"nested", "use host as h;function f(p){h.output(p);}h.exports[h.input(1)]=2;"⟩ = .ok m ∧
      Program.ofModule m = .ok program ∧ (∀ name, program.host = some name → Builtin.ofName? name = none) ∧
      Program.Corresponds program.host (usesOf m) (capabilities program) ∧ (usesOf m).length = 3 ∧ (capabilities program).length = 3) ∧
    ∃ m program, Script.Module.ofSource ⟨"plain", "let h=1;h;"⟩ = .ok m ∧ Program.ofModule m = .ok program ∧
      (∀ name, program.host = some name → Builtin.ofName? name = none) ∧
      ∀ (host : Host) (fuel : Nat) (limits : Limits) (answers : List String),
        (runFor host fuel limits answers program).state.events = [] := by
  refine ⟨?_, ?_⟩
  · obtain ⟨m, program, hm, hprogram, hcheck⟩ := ofSource_check
      ⟨"nested", "use host as h;function f(p){h.output(p);}h.exports[h.input(1)]=2;"⟩
      (fun m program => program.host == some "h" && (usesOf m).length == 3 && (capabilities program).length == 3) (by decide +kernel)
    simp only [Bool.and_eq_true, beq_iff_eq] at hcheck
    obtain ⟨⟨hhost, huses⟩, hcapabilities⟩ := hcheck
    have hbuiltin : ∀ name, program.host = some name → Builtin.ofName? name = none := by
      intro name hname
      obtain rfl := Option.some.inj (hhost.symm.trans hname)
      decide +kernel
    obtain ⟨-, hcorresponds, -⟩ := capabilities_imported hprogram hbuiltin
    exact ⟨m, program, hm, hprogram, hbuiltin, hcorresponds, huses, hcapabilities⟩
  · obtain ⟨m, program, hm, hprogram, hcheck⟩ := ofSource_check ⟨"plain", "let h=1;h;"⟩
      (fun m program => m.host.isNone && program.host == none) (by decide +kernel)
    rw [Bool.and_eq_true, beq_iff_eq] at hcheck
    obtain ⟨hnone, hhost⟩ := hcheck
    have hbuiltin : ∀ name, program.host = some name → Builtin.ofName? name = none := by
      intro name hname
      rw [hhost] at hname
      contradiction
    obtain ⟨-, -, -, -, hisolated⟩ := capabilities_imported hprogram hbuiltin
    obtain ⟨-, -, hruns, -⟩ := hisolated hnone
    exact ⟨m, program, hm, hprogram, hbuiltin, fun host fuel limits answers => (hruns host fuel limits answers).1⟩

end HostScript.Machine
