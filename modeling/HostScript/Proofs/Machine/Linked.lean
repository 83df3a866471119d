import Mathlib
import HostScript.Proofs.Machine.Heap
import HostScript.Proofs.Machine.Primitive

/-!
# Runs on scopes with links and runs on chains

A part of a run on scopes with links does what the same part does on the chain of scopes that the links make up: it has the same result,
exchanges the same with the host and leaves scopes that make up the chain that the other leaves (`Simulates`). In particular the link of
a function that is called never leads to a scope that has been released. This is `simulated`; it goes by induction on the fuel, with one
case for each form of expression and statement. Whole runs end alike (`runFor_eq`), and no scope outlives its run (`all_released`).
-/

namespace HostScript.Machine.Linked

open Program (Expression Statement Block Place PathSegment Function)

variable {host : Host} {α β : Type} {env : Option Address} {as growing : List Address} {heap : Heap} {a : Address}

/-- A state without its scopes. -/
def bare (m : Machine.State) : Machine.State := { m with scopes := [] }

/-- The result of a part of a run on a chain, with a heap in place of the chain. -/
def onHeap (heap : Heap) : EStateM.Result Halt Machine.State α → EStateM.Result Halt State α
  | .ok a m => .ok a ⟨heap, bare m⟩
  | .error halt m => .error halt ⟨heap, bare m⟩

/-- A part of a run on a heap has ended as one on a chain, and has left the rest of the heap alone. -/
def Mirrors (as growing : List Address) (heap : Heap) (out : EStateM.Result Halt State α)
    (chain : EStateM.Result Halt Machine.State α) : Prop :=
  ∃ after, out = onHeap after chain ∧ Chained after as (leaves chain).scopes ∧ Kept as growing heap after

/-- A part of a run in some scope does what another one does on the chain that begins there. New names are given to some scopes only. -/
def Simulates (growing : List Address) (env : Option Address) (l : Run α) (r : Machine.Run α) : Prop :=
  ∀ heap as m, as.head? = env → Chained heap as m.scopes → Mirrors as growing heap (l ⟨heap, bare m⟩) (r m)

/-- A part of a run has nothing to do with scopes. -/
def Apart (r : Machine.Run α) : Prop := ∀ m scopes, r { m with scopes } = leaving (fun after => { after with scopes }) (r m)

/-! ## Parts that have nothing to do with scopes -/

namespace Apart

/-- A value has nothing to do with scopes. -/
theorem pure (a : α) : Apart (Pure.pure a) := fun _ _ => rfl

/-- A fault has nothing to do with scopes. -/
theorem failAt (span : Span) (problem : Problem) : Apart (failAt (α := α) span problem) := fun _ _ => rfl

/-- An operation on values has nothing to do with scopes. -/
theorem locate {ε : Type} (span : Span) (wrap : ε → Problem) (r : Except ε α) : Apart (locate span wrap r) := by
  cases r with
  | ok a => exact pure a
  | error e => exact failAt span (wrap e)

/-- Neither has a step, which is counted in the budget, -/
theorem step (host : Host) : Apart (step host) := by
  intro m scopes
  rw [step_apply, step_apply]
  dsimp only
  rcases m.budget.step (host.clock (m.budget.steps + 1)) with ⟨budget, _ | fault⟩ <;> rfl

/-- an event, -/
theorem record (event : Event) : Apart (record event) := fun _ _ => rfl

/-- a question to the host, -/
theorem ask (host : Host) (span : Span) (prompt : String) : Apart (ask host span prompt) := by
  intro m scopes
  rw [ask_apply, ask_apply]
  dsimp only
  cases m.answers <;> rfl

/-- the reading of the exports, -/
theorem exports : Apart (do return (← get).exports) := fun _ _ => rfl

/-- or an assignment to them. -/
theorem assignExports (span : Span) (path : List Value) (v : Value) : Apart (assignExports span path v) := by
  intro m scopes
  rw [assignExports_apply, assignExports_apply]
  dsimp only
  rcases assignedExports path v m.exports with ⟨exports, _ | problem⟩ <;> rfl

/-- Such a part leaves the chain as it is. -/
theorem leaves_scopes {r : Machine.Run α} (h : Apart r) (m : Machine.State) : (leaves (r m)).scopes = m.scopes := by
  have hsame : r m = leaving (fun after => { after with scopes := m.scopes }) (r m) := h m m.scopes
  calc (leaves (r m)).scopes = (leaves (leaving (fun after => { after with scopes := m.scopes }) (r m))).scopes :=
        congrArg (fun out => (leaves out).scopes) hsame
    _ = m.scopes := by rw [leaves_leaving]

end Apart

/-! ## Composed parts -/

/-- What comes after a part begins on the heap that the part has left. -/
theorem Mirrors.bind {l : Run α} {r : Machine.Run α} {lf : α → Run β} {rf : α → Machine.Run β} {start : State} {m : Machine.State}
    (h : Mirrors as growing heap (l start) (r m))
    (hf : ∀ a after m', Chained after as m'.scopes → Kept as growing heap after →
      Mirrors as growing after (lf a ⟨after, bare m'⟩) (rf a m')) :
    Mirrors as growing heap ((l >>= lf) start) ((r >>= rf) m) := by
  obtain ⟨after, hout, hc, hkept⟩ := h
  cases hr : r m with
  | ok a m' =>
    rw [hr] at hout hc
    obtain ⟨last, hout', hc', hkept'⟩ := hf a after m' hc hkept
    refine ⟨last, ?_, ?_, hkept.trans hkept'⟩
    · rw [bind_ok hr, ← hout']
      simp only [Bind.bind, EStateM.bind, hout, onHeap]
    · rw [bind_ok hr]
      exact hc'
  | error halt m' =>
    rw [hr] at hout hc
    refine ⟨after, ?_, ?_, hkept⟩
    · rw [bind_error hr]
      simp only [Bind.bind, EStateM.bind, hout, onHeap]
    · rw [bind_error hr]
      exact hc

namespace Simulates

/-- A part that gives no new names to any scope may be seen as one that gives some. -/
theorem grow {l : Run α} {r : Machine.Run α} (h : Simulates [] env l r) : Simulates growing env l r := by
  intro heap as m has hc
  obtain ⟨after, hout, hc', hkept⟩ := h heap as m has hc
  exact ⟨after, hout, hc', hkept.weaken (fun _ => id) nofun⟩

/-- A part that has nothing to do with scopes is the same on a heap. -/
theorem lift {r : Machine.Run α} (h : Apart r) : Simulates growing env (lift r) r := by
  intro heap as m has hc
  have hbare : r (bare m) = leaving bare (r m) := h m []
  refine ⟨heap, ?_, (h.leaves_scopes m).symm ▸ hc, .refl as growing heap⟩
  unfold Linked.lift
  rw [hbare]
  cases r m <;> rfl

/-- A value is the same on a heap. -/
theorem pure (a : α) : Simulates growing env (Pure.pure a) (Pure.pure a) := lift (.pure a)

/-- The want of fuel is the same on a heap. -/
theorem outOfFuel : Simulates growing env (throw Halt.outOfFuel : Run α) (throw Halt.outOfFuel) :=
  lift (r := throw Halt.outOfFuel) fun _ _ => rfl

/-- Two parts one after the other are the same on a heap if each is. -/
theorem bind {l : Run α} {r : Machine.Run α} {lf : α → Run β} {rf : α → Machine.Run β} (h : Simulates growing env l r)
    (hf : ∀ a, Simulates growing env (lf a) (rf a)) : Simulates growing env (l >>= lf) (r >>= rf) := fun heap as m has hc =>
  (h heap as m has hc).bind fun a after m' hc' _ => hf a after as m' has hc'

/-- A part that fails does nothing of what comes after it. -/
theorem failAt (span : Span) (problem : Problem) (lf : α → Run β) (rf : α → Machine.Run β) :
    Simulates growing env (Linked.lift (Machine.failAt span problem) >>= lf) (Machine.failAt span problem >>= rf) := by
  intro heap as m _ hc
  exact ⟨heap, rfl, hc, .refl as growing heap⟩

end Simulates

/-! ## Parts that read and change scopes -/

/-- Reading the state first is to use the state there is. -/
theorem get_bind (f : State → Run β) (m : State) : (get >>= f) m = f m m := rfl

/-- What is done at the end of a part on a heap and of one on a chain. -/
theorem ending_onHeap {l : Run α} {m : State} {chain : EStateM.Result Halt Machine.State α} {f : State → State}
    {g : Machine.State → Machine.State} {last : Heap} (h : l m = onHeap heap chain)
    (hf : ∀ m, f ⟨heap, bare m⟩ = ⟨last, bare (g m)⟩) :
    ending f l m = onHeap last (leaving g chain) := by
  unfold ending
  rw [h]
  cases chain with
  | ok a m => exact congrArg (EStateM.Result.ok a) (hf m)
  | error halt m => exact congrArg (EStateM.Result.error halt) (hf m)

/-- What only changes the chain is not seen on the heap. -/
theorem onHeap_leaving {chain : EStateM.Result Halt Machine.State α} {g : Machine.State → Machine.State}
    (hg : ∀ m, bare (g m) = bare m) :
    onHeap heap (leaving g chain) = onHeap heap chain := by
  cases chain with
  | ok a m => exact congrArg (fun outside => EStateM.Result.ok a (State.mk heap outside)) (hg m)
  | error halt m => exact congrArg (fun outside => EStateM.Result.error halt (State.mk heap outside)) (hg m)

/-- What is looked up is found on the heap as it is on the chain. -/
theorem Chained.lookup {scopes : List Scope} (hc : Chained heap as scopes) (has : as.head? = env) (name : String) :
    findSlot? name scopes = (heap.find? name env).map fun found => found.2.erase := has ▸ hc.findSlot name

namespace Simulates

/-- A variable is read on a heap as on the chain that begins at its address. -/
theorem readVariable (span : Span) (name : String) :
    Simulates growing (some a) (readVariable a span name) (Machine.readVariable span name) := by
  intro heap as m has hc
  have hlookup := hc.lookup has name
  unfold Linked.readVariable
  rw [readVariable_apply, get_bind]
  dsimp only
  cases hfound : heap.find? name (some a) with
  | none =>
    rw [hfound] at hlookup
    rw [hlookup]
    exact ⟨heap, rfl, hc, .refl as growing heap⟩
  | some found =>
    obtain ⟨home, slot⟩ := found
    rw [hfound] at hlookup
    rw [hlookup]
    cases slot <;> exact ⟨heap, rfl, hc, .refl as growing heap⟩

/-- A name is bound at an address as in the innermost scope of the chain that begins there. -/
theorem bindName (name : String) (v : Value) :
    Simulates [a] (some a) (Linked.bind name (.value v) a) (Machine.bind name (.value v)) := by
  intro heap as m has hc
  obtain ⟨as, rfl⟩ := List.head?_eq_some_iff.mp has
  obtain ⟨scopes, exports, budget, events, answers⟩ := m
  cases scopes with
  | nil => nomatch hc
  | cons scope scopes =>
    exact ⟨_, rfl, hc.bound name v, .of_set List.mem_cons_self name _ (Or.inl List.mem_cons_self)⟩

/-- An assignment to a variable is the same on a heap. -/
theorem assignVariable (span : Span) (name : String) (path : List Value) (v : Value) :
    Simulates growing (some a) (assignVariable a span name path v) (Machine.assignVariable span name path v) := by
  intro heap as m has hc
  have hlookup := hc.lookup has name
  unfold Linked.assignVariable
  rw [assignVariable_apply, get_bind]
  dsimp only
  cases hfound : heap.find? name (some a) with
  | none =>
    rw [hfound] at hlookup
    rw [hlookup]
    exact ⟨heap, rfl, hc, .refl as growing heap⟩
  | some found =>
    obtain ⟨home, slot⟩ := found
    rw [hfound] at hlookup
    rw [hlookup]
    cases slot with
    | value current =>
      rw [← has] at hfound
      obtain ⟨front, outer, cell, hsplit, hhome, -⟩ := hc.found hfound
      have hmem : home ∈ as := hsplit ▸ List.mem_append_right front List.mem_cons_self
      have hkept (v : Value) : Kept as growing heap (heap.change (.set name (.value v)) home) :=
        .of_set hmem name _ (Or.inr hhome.here)
      dsimp only [Option.map_some, Slot.erase]
      generalize Value.modifyPath (fun _ => v) path current = modified
      obtain ⟨updated, _ | fault⟩ := modified
      · exact ⟨_, rfl, hc.replaced hfound updated, hkept updated⟩
      · exact ⟨_, rfl, hc.replaced hfound updated, hkept updated⟩
    | _ => exact ⟨heap, rfl, hc, .refl as growing heap⟩

/-- A block is left with its scope released and the scopes around it held as before. -/
theorem inScope {names : Address → Names} {scope : Scope} {l : Address → Run α} {r : Machine.Run α}
    (hlinks : ∀ a, (names a).LinkTo a) (herase : ∀ a, (names a).erase = scope) (h : ∀ a, Simulates [a] (some a) (l a) r) :
    Simulates [] env (inScope env names l) (Machine.inScope scope r) := by
  intro heap as m has hc
  subst has
  have hretained := hc.retained as.head?
  have hlength := Heap.length_retain heap as.head?
  have hentered := hretained.entered (hlength.symm ▸ hlinks heap.length)
  rw [herase, hlength] at hentered
  obtain ⟨after, hout, hafter, hkept⟩ := h heap.length _ _ { m with scopes := scope :: m.scopes } rfl hentered
  obtain ⟨hleft, hsame⟩ := hkept.left hc hafter
  refine ⟨_, ?_, ?_, hsame⟩
  · rw [inScope_apply]
    exact ending_onHeap hout fun _ => rfl
  · rw [inScope_apply, leaves_leaving]
    exact hleft

end Simulates

/-! ## Calls -/

/-- Running with a hold on a scope of the chain. -/
theorem Mirrors.holding {home : Address} {l : Run α} {m : Machine.State} {chain : EStateM.Result Halt Machine.State α}
    (hc : Chained heap as m.scopes) (hhome : home ∈ as)
    (h : Mirrors as growing (heap.retain (some home)) (l ⟨heap.retain (some home), bare m⟩) chain) :
    Mirrors as growing heap (holding home l ⟨heap, bare m⟩) chain := by
  obtain ⟨after, hout, hafter, hkept⟩ := h
  obtain ⟨hafter', hkept'⟩ := hkept.letGo hc hhome hafter
  exact ⟨_, (ending_onHeap hout fun _ => rfl).trans (onHeap_leaving (g := id) fun _ => rfl), hafter', hkept'⟩

/-- A call whose function was found in some scope puts its frame on that scope, and so does the chain. -/
theorem Mirrors.inCall {home : Address} {name : String} {names : Address → Names} {scope : Scope} {l : Address → Run α} {r : Machine.Run α}
    (hlinks : ∀ a, (names a).LinkTo a) (herase : ∀ a, (names a).erase = scope) (h : ∀ a, Simulates [a] (some a) (l a) r)
    {front outer : List Address} {m : Machine.State} (hc : Chained heap (front ++ home :: outer) m.scopes)
    (hhome : Innermost heap name front home) :
    Mirrors (front ++ home :: outer) [] heap (inCall home names l ⟨heap, bare m⟩) (Machine.inCall name scope r m) := by
  rw [inCall_apply, hc.depth hhome]
  unfold Linked.inCall
  by_cases hdepth : m.budget.limits.maxCallDepth ≤ m.budget.depth
  · have hrefused : (bare m).budget.enterCall = .error (.callDepth m.budget.limits.maxCallDepth) := if_pos hdepth
    rw [if_pos hdepth]
    dsimp only
    rw [hrefused]
    exact ⟨heap, rfl, hc, .refl _ [] heap⟩
  · have hentered : (bare m).budget.enterCall = .ok { m.budget with depth := m.budget.depth + 1 } := if_neg hdepth
    rw [if_neg hdepth]
    dsimp only
    rw [hentered]
    let entered : Machine.State :=
      { m with scopes := m.scopes.drop front.length, budget := { m.budget with depth := m.budget.depth + 1 } }
    have hcalled : m.called name scope = { entered with scopes := scope :: entered.scopes } := by
      unfold State.called
      rw [hc.depth hhome]
    have hframe : Simulates [] (some home) (Linked.inScope (some home) names l) (Machine.inScope scope r) := .inScope hlinks herase h
    obtain ⟨after, hout, hafter, hkept⟩ := hframe heap (home :: outer) entered rfl hc.outer
    rw [inScope_apply, ← hcalled] at hout hafter
    rw [onHeap_leaving (g := State.dropScope) fun _ => rfl] at hout
    rw [leaves_leaving] at hafter
    refine ⟨after, ?_, ?_, hkept.weaken (fun _ => List.mem_append_right front) nofun⟩
    · exact ending_onHeap hout fun _ => rfl
    · have hfront : ∀ a ∈ front, after.cellAt a = heap.cellAt a := fun a ha =>
        hkept.others a (hc.lt_length a (List.mem_append_left _ ha)) (hc.front_disjoint a ha)
      rw [leaves_leaving]
      exact hc.restored hfront hafter

/-- A function is found on the heap as it is on the chain. Its link leads to the scope it is found in, which is held. -/
theorem readFunction_mirrors {m : Machine.State} (has : as.head? = some a) (hc : Chained heap as m.scopes) (span : Span)
    (name : String) :
    (∃ f home front outer, readFunction a span name ⟨heap, bare m⟩ = .ok (f, home) ⟨heap, bare m⟩ ∧
      Machine.readFunction span name m = .ok f m ∧ as = front ++ home :: outer ∧ Innermost heap name front home) ∨
    ∃ halt, readFunction a span name ⟨heap, bare m⟩ = .error halt ⟨heap, bare m⟩ ∧
      Machine.readFunction span name m = .error halt m := by
  have hlookup := hc.lookup has name
  unfold readFunction
  rw [readFunction_apply, get_bind]
  dsimp only
  cases hfound : heap.find? name (some a) with
  | none =>
    rw [hfound] at hlookup
    rw [hlookup]
    exact Or.inr ⟨_, rfl, rfl⟩
  | some found =>
    obtain ⟨at_, slot⟩ := found
    rw [hfound] at hlookup
    rw [hlookup]
    cases slot with
    | function f home =>
      rw [← has] at hfound
      obtain ⟨front, outer, cell, hsplit, hinner, hcell, hslot, hlinks⟩ := hc.found hfound
      obtain rfl : home = at_ := hlinks.lookup hslot
      obtain ⟨held, hheld, hne⟩ := hc.held home (hsplit ▸ List.mem_append_right front List.mem_cons_self)
      have halive : heap.isAlive home = true := by
        unfold Heap.isAlive
        rw [hheld]
        exact bne_iff_ne.mpr hne
      dsimp only
      rw [if_pos halive]
      exact Or.inl ⟨f, home, front, outer, rfl, rfl, hsplit, hinner⟩
    | _ => exact Or.inr ⟨_, rfl, rfl⟩

/-- A link to a scope that nothing has hold of would be a fault. -/
example (f : Function) (span : Span) (outside : Machine.State) :
    let m : State := ⟨[⟨[("f", .function f 0)], none, 1⟩, .released], outside⟩
    readFunction 1 span "f" m = .error (.fault (.problem span .scopeReleased)) m := rfl

/-- The part of a call behind the search for its function. Nothing that the arguments do changes where the function is found. -/
theorem Mirrors.called {home : Address} (span : Span) {name : String} (f : Function) (args : List Expression)
    {largs : Run (List Value)} {rargs : Machine.Run (List Value)} (hargs : Simulates [] (some a) largs rargs)
    {lbody : Address → Run Flow} {rbody : Machine.Run Flow} (hbody : ∀ b, Simulates [b] (some b) (lbody b) rbody)
    {front outer : List Address} {m : Machine.State}
    (has : (front ++ home :: outer).head? = some a) (hc : Chained heap (front ++ home :: outer) m.scopes)
    (hhome : Innermost heap name front home) :
    Mirrors (front ++ home :: outer) [] heap
      ((do
        if args.length != f.params.length then lift (failAt span (.arity name f.params.length args.length))
        let vs ← largs
        Linked.inCall home (callFrame · f vs) lbody : Run Flow) ⟨heap, bare m⟩)
      ((do
        if args.length != f.params.length then failAt span (.arity name f.params.length args.length)
        let vs ← rargs
        Machine.inCall name (Machine.callFrame f vs) rbody : Machine.Run Flow) m) := by
  dsimp only
  split
  · exact Simulates.failAt span _ _ _ heap _ m has hc
  · refine (hargs heap _ m has hc).bind fun vs after m' hc' hkept => ?_
    have hlt := hc.lt_length
    refine .inCall (fun b => .callFrame b f vs) (fun b => erase_callFrame b f vs) hbody hc' ?_
    exact hhome.kept hkept (fun b hb => hlt b (List.mem_append_left _ hb)) (hlt home (List.mem_append_right front List.mem_cons_self))

/-- A call on the heap does what it does on the chain. -/
theorem Simulates.call (span : Span) (name : String) (args : List Expression) {largs : Run (List Value)}
    {rargs : Machine.Run (List Value)} (hargs : Simulates [] (some a) largs rargs) {lbody : Function → Address → Run Flow}
    {rbody : Function → Machine.Run Flow} (hbody : ∀ f b, Simulates [b] (some b) (lbody f b) (rbody f)) {lk : Flow → Run β}
    {rk : Flow → Machine.Run β} (hk : ∀ flow, Simulates [] (some a) (lk flow) (rk flow)) :
    Simulates [] (some a)
      (readFunction a span name >>= fun found => holding found.2 (do
        if args.length != found.1.params.length then
          Linked.lift (Machine.failAt span (.arity name found.1.params.length args.length))
        let vs ← largs
        Linked.inCall found.2 (callFrame · found.1 vs) (lbody found.1)) >>= lk)
      (Machine.readFunction span name >>= fun f => do
        if args.length != f.params.length then Machine.failAt span (.arity name f.params.length args.length)
        let vs ← rargs
        let flow ← Machine.inCall name (Machine.callFrame f vs) (rbody f)
        rk flow) := by
  intro heap as m has hc
  obtain ⟨f, home, front, outer, hread, hread', rfl, hhome⟩ | ⟨halt, hread, hread'⟩ := readFunction_mirrors has hc span name
  · have hmem : home ∈ front ++ home :: outer := List.mem_append_right front List.mem_cons_self
    have hcalled := Mirrors.holding hc hmem (.called span f args hargs (hbody f) has (hc.retained (some home)) hhome.retained)
    have hbound := hcalled.bind fun flow after m' hc' _ => hk flow after _ m' has hc'
    -- on the chain the value of the call is made inside of the part behind the check of the arguments
    have hassoc : (do
        if args.length != f.params.length then Machine.failAt span (.arity name f.params.length args.length)
        let vs ← rargs
        Machine.inCall name (Machine.callFrame f vs) (rbody f)) >>= rk = (do
        if args.length != f.params.length then Machine.failAt span (.arity name f.params.length args.length)
        let vs ← rargs
        let flow ← Machine.inCall name (Machine.callFrame f vs) (rbody f)
        rk flow) := by
      dsimp only
      split <;> simp only [bind_assoc]
    rw [hassoc] at hbound
    rw [bind_ok hread']
    simp only [Bind.bind, EStateM.bind, hread] at hbound ⊢
    exact hbound
  · rw [bind_error hread']
    refine ⟨heap, ?_, hc, .refl as [] heap⟩
    simp only [Bind.bind, EStateM.bind, hread, onHeap]

/-! ## The simulation -/

/-- With the given fuel, everything that is evaluated or executed on a heap is as on a chain. -/
structure Simulated (host : Host) (fuel : Nat) : Prop where
  eval (a : Address) (e : Expression) : Simulates [] (some a) (eval host fuel a e) (Machine.eval host fuel e)
  evalAll (a : Address) (es : List Expression) : Simulates [] (some a) (evalAll host fuel a es) (Machine.evalAll host fuel es)
  evalFields (a : Address) (table : Table Value) (fields : List (Expression × Expression)) :
    Simulates [] (some a) (evalFields host fuel a table fields) (Machine.evalFields host fuel table fields)
  evalPath (a : Address) (path : List PathSegment) :
    Simulates [] (some a) (evalPath host fuel a path) (Machine.evalPath host fuel path)
  execBlock (outer : Option Address) (block : Block) :
    Simulates [] outer (execBlock host fuel outer block) (Machine.execBlock host fuel block)
  execAll (a : Address) (stmts : List Statement) :
    Simulates [a] (some a) (execAll host fuel a stmts) (Machine.execAll host fuel stmts)
  exec (a : Address) (s : Statement) : Simulates [a] (some a) (exec host fuel a s) (Machine.exec host fuel s)
  loop (a : Address) (cond : Expression) (body : Block) :
    Simulates [] (some a) (loop host fuel a cond body) (Machine.loop host fuel cond body)

/-- Evaluating an expression on a heap. -/
theorem simulates_eval {fuel : Nat} (ih : Simulated host fuel) (a : Address) (e : Expression) :
    Simulates [] (some a) (eval host (fuel + 1) a e) (Machine.eval host (fuel + 1) e) := by
  unfold Linked.eval Machine.eval
  cases e with
  | const v => exact .pure v
  | local_ span name => exact .readVariable span name
  | array items => exact .bind (ih.evalAll a items) fun vs => .pure _
  | object fields => exact .bind (ih.evalFields a .empty fields) fun table => .pure _
  | unary span op operand => exact .bind (ih.eval a operand) fun v => .lift (.locate span id _)
  | arith span op left right =>
    exact .bind (ih.eval a left) fun l => .bind (ih.eval a right) fun r => .lift (.locate span id _)
  | compare span op left right =>
    exact .bind (ih.eval a left) fun l => .bind (ih.eval a right) fun r => .lift (.locate span id _)
  | logic op left right =>
    refine .bind (ih.eval a left) fun l => ?_
    cases op <;> cases l.isTruthy <;> first | exact .pure _ | exact .bind (ih.eval a right) fun r => .pure _
  | member span base field => exact .bind (ih.eval a base) fun v => .lift (.locate span .access _)
  | index span base key =>
    exact .bind (ih.eval a base) fun v => .bind (ih.eval a key) fun k => .lift (.locate span .access _)
  | call span name args =>
    refine .call span name args (ih.evalAll a args) (fun f b => ih.execAll b f.body.stmts) fun flow => ?_
    cases flow <;> exact .pure _
  | builtin span function args => exact .bind (ih.evalAll a args) fun vs => .lift (.locate span .builtin _)
  | output span value => exact .bind (ih.eval a value) fun v => .bind (.lift (.record _)) fun _ => .pure _
  | input span prompt => exact .bind (ih.eval a prompt) fun p => .bind (.lift (.ask host span _)) fun line => .pure _
  | exports => exact .lift .exports

/-- Executing a statement on a heap. -/
theorem simulates_exec {fuel : Nat} (ih : Simulated host fuel) (a : Address) (s : Statement) :
    Simulates [a] (some a) (exec host (fuel + 1) a s) (Machine.exec host (fuel + 1) s) := by
  unfold Linked.exec Machine.exec
  refine .bind (.lift (.step host)) fun _ => ?_
  cases s with
  | let_ name value => exact .bind (ih.eval a value).grow fun v => .bind (.bindName name v) fun _ => .pure _
  | assign target value =>
    refine .bind (ih.eval a value).grow fun v => ?_
    cases target with
    | local_ span name path =>
      exact .bind (ih.evalPath a path).grow fun keys => .bind (.assignVariable span name keys v) fun _ => .pure _
    | exports span path =>
      exact .bind (ih.evalPath a path).grow fun keys => .bind (.lift (.assignExports span keys v)) fun _ => .pure _
  | expr e => exact .bind (ih.eval a e).grow fun _ => .pure _
  | if_ cond body otherwise =>
    refine .bind (ih.eval a cond).grow fun v => ?_
    split
    · exact (ih.execBlock (some a) body).grow
    · cases otherwise with
      | none => exact .pure _
      | some block => exact (ih.execBlock (some a) block).grow
  | while_ span cond body => exact (ih.loop a cond body).grow
  | return_ value =>
    cases value with
    | none => exact .pure _
    | some value => exact .bind (ih.eval a value).grow fun v => .pure _
  | break_ => exact .pure _
  | continue_ => exact .pure _
  | block body => exact (ih.execBlock (some a) body).grow

/-- A turn of a loop on a heap. -/
theorem simulates_loop {fuel : Nat} (ih : Simulated host fuel) (a : Address) (cond : Expression) (body : Block) :
    Simulates [] (some a) (loop host (fuel + 1) a cond body) (Machine.loop host (fuel + 1) cond body) := by
  rw [Linked.loop, Machine.loop]
  refine .bind (ih.eval a cond) fun v => ?_
  split
  · exact .pure _
  · refine .bind (ih.execBlock (some a) body) fun flow => ?_
    cases flow with
    | break_ => exact .pure _
    | return_ v => exact .pure _
    | _ => exact .bind (.lift (.step host)) fun _ => ih.loop a cond body

/-- Whatever the fuel, a heap is run on as a chain is. -/
theorem simulated (host : Host) (fuel : Nat) : Simulated host fuel := by
  induction fuel with
  | zero =>
    refine ⟨fun a e => ?_, fun _ _ => .outOfFuel, fun _ _ _ => .outOfFuel, fun _ _ => .outOfFuel, fun _ _ => .outOfFuel,
      fun _ _ => .outOfFuel, fun a s => ?_, fun a cond body => ?_⟩
    · unfold Linked.eval Machine.eval
      exact .outOfFuel
    · unfold Linked.exec Machine.exec
      exact .outOfFuel
    · unfold Linked.loop Machine.loop
      exact .outOfFuel
  | succ fuel ih =>
    refine ⟨simulates_eval ih, fun a es => ?_, fun a table fields => ?_, fun a path => ?_, fun outer block => ?_,
      fun a stmts => ?_, simulates_exec ih, simulates_loop ih⟩
    · cases es with
      | nil => exact .pure _
      | cons e rest => exact .bind (ih.eval a e) fun v => .bind (ih.evalAll a rest) fun vs => .pure _
    · rcases fields with _ | ⟨⟨key, value⟩, rest⟩
      · exact .pure _
      · exact .bind (ih.eval a key) fun k => .bind (ih.eval a value) fun v => ih.evalFields a _ rest
    · rcases path with _ | ⟨_ | key, rest⟩
      · exact .pure _
      · exact .bind (ih.evalPath a rest) fun vs => .pure _
      · exact .bind (ih.eval a key) fun v => .bind (ih.evalPath a rest) fun vs => .pure _
    · exact .inScope (fun b => .bindBlock (List.forall_mem_nil _) block) (fun b => erase_bindBlock b block [])
        fun b => ih.execAll b block.stmts
    · cases stmts with
      | nil => exact .pure _
      | cons s rest =>
        refine .bind (ih.exec a s) fun flow => ?_
        cases flow with
        | normal => exact ih.execAll a rest
        | _ => exact .pure _

/-! ## Whole runs -/

/-- A whole run is the same on a heap. -/
theorem simulates_runWith (host : Host) (fuel : Nat) (program : Program) :
    Simulates [] none (runWith host fuel program) (Machine.runWith host fuel program) := by
  unfold runWith Machine.runWith
  refine ((simulated host fuel).execBlock none program.body).bind fun flow => ?_
  cases flow with
  | normal => exact .pure ()
  | _ => exact .lift (r := throw (.fault .strayFlow)) fun _ _ => rfl

/-- A run on scopes with links ends as the run on a chain does, with the same result for the host. So no call in it fails because the
scope of its function has been released. -/
theorem runFor_eq (host : Host) (fuel : Nat) (limits : Limits) (answers : List String) (program : Program) :
    runFor host fuel limits answers program = Machine.runFor host fuel limits answers program := by
  obtain ⟨after, hout, hc, -⟩ := simulates_runWith host fuel program [] [] (.start limits answers) rfl .nil
  have hlinked : runWith host fuel program ⟨[], .start limits answers⟩ = _ := hout
  unfold runFor Machine.runFor
  rw [hlinked]
  have hbare (m : Machine.State) (hm : Chained after [] m.scopes) : bare m = m := by
    obtain ⟨scopes, exports, budget, events, answers⟩ := m
    cases hm
    rfl
  cases hend : Machine.runWith host fuel program (.start limits answers) with
  | ok _ m =>
    rw [hend] at hc
    exact congrArg (Result.mk · none) (hbare m hc)
  | error halt m =>
    rw [hend] at hc
    exact congrArg (Result.mk · (some halt)) (hbare m hc)

/-- When a run has ended, in whichever way, nothing has hold of any of its scopes. -/
theorem all_released (host : Host) (fuel : Nat) (limits : Limits) (answers : List String) (program : Program) :
    ∃ heap, runWith host fuel program ⟨[], .start limits answers⟩ =
        onHeap heap (Machine.runWith host fuel program (.start limits answers)) ∧
      ∀ a cell, heap.cellAt a = some cell → cell.holds = 0 := by
  obtain ⟨heap, hout, -, hkept⟩ := simulates_runWith host fuel program [] [] (.start limits answers) rfl .nil
  exact ⟨heap, hout, fun a cell hcell => hkept.gone a cell (Nat.zero_le a) hcell⟩

end HostScript.Machine.Linked
