import Mathlib
import HostScript.Proofs.Machine.Slots
import HostScript.Proofs.Machine.Soundness
import HostScript.Proofs.Program.Orderly

/-!
# Variables with a value

In a run of an orderly program without functions, the names that are known in front of a statement have a value: each was bound in the
scope that is the innermost one with the name (`Ready`). So no assignment to a marked variable comes before its first value
(`runFor_initialized`).
-/

namespace HostScript.Machine

open Program (Expression Statement Block Place PathSegment Function)
open ChainAux (lookup_set lookup_bindBlock)

/-! ## Scopes -/

/-- A scope in which some names have a value, and which has no slots for some others. -/
structure Scope.Ready (names outer : List String) (scope : Scope) : Prop where
  initialized : ∀ name ∈ names, ∃ v, scope.lookup name = some (.value v)
  apart : ∀ name ∈ outer, scope.lookup name = none

/-- The scopes of a chain belong to lists of names: the names of each have a value in their scope, and no slot in the scopes inside it. -/
def Ready : List (List String) → List Scope → Prop
  | [], [] => True
  | names :: outer, scope :: scopes => scope.Ready names outer.flatten ∧ Ready outer scopes
  | _, _ => False

namespace Scope.Ready

variable {names outer : List String} {scope : Scope} {name : String}

/-- A new name with a value makes the scope ready for it. -/
theorem set_new (h : scope.Ready names outer) (hnew : name ∉ outer) (v : Value) :
    (Scope.set name (.value v) scope).Ready (name :: names) outer := by
  constructor
  · intro other hother
    rw [lookup_set]
    split
    · exact ⟨v, rfl⟩
    · rename_i hne
      exact h.initialized other ((List.mem_cons.mp hother).resolve_left hne)
  · intro other hother
    have hne : other ≠ name := by
      rintro rfl
      exact hnew hother
    rw [lookup_set, if_neg hne]
    exact h.apart other hother

/-- A scope that is ready for some names is ready for fewer. -/
theorem mono {fewer : List String} (h : scope.Ready names outer) (hfewer : fewer ⊆ names) : scope.Ready fewer outer :=
  ⟨fun name hname => h.initialized name (hfewer hname), h.apart⟩

end Scope.Ready

namespace Ready

variable {known : List (List String)} {scopes : List Scope} {marks : List Span} {name : String}

/-- A known name has a value. -/
theorem found (h : Ready known scopes) (hname : name ∈ known.flatten) : ∃ v, findSlot? name scopes = some (.value v) := by
  induction known generalizing scopes with
  | nil => exact absurd hname List.not_mem_nil
  | cons names outer ih =>
    cases scopes with
    | nil => exact h.elim
    | cons scope scopes =>
      obtain ⟨hscope, houter⟩ := h
      rw [findSlot?]
      rcases List.mem_append.mp hname with hname | hname
      · obtain ⟨v, hv⟩ := hscope.initialized name hname
        exact ⟨v, by rw [hv]⟩
      · rw [hscope.apart name hname]
        exact ih houter hname

/-- Behind the innermost scope the others are ready. -/
theorem tail (h : Ready known scopes) : Ready known.tail scopes.tail := by
  cases known with
  | nil =>
    cases scopes with
    | nil => trivial
    | cons scope scopes => exact h.elim
  | cons names outer =>
    cases scopes with
    | nil => exact h.elim
    | cons scope scopes => exact h.2

/-- A new block has no slots for the names that are known around it. -/
theorem entered (h : Ready known scopes) {block : Block} (hblock : block.Orderly marks known.flatten) :
    Ready ([] :: known) (bindBlock block [] :: scopes) := by
  obtain ⟨locals, functions, stmts⟩ := block
  obtain ⟨hlocals, rfl, -⟩ := hblock
  refine ⟨⟨List.forall_mem_nil _, fun name hname => ?_⟩, h⟩
  rcases lookup_bindBlock (.mk locals [] stmts) [] name with ⟨f, hf, -⟩ | ⟨-, ⟨hlocal, -⟩ | ⟨-, hlookup⟩⟩
  · exact absurd hf List.not_mem_nil
  · exact absurd hname (hlocals name hlocal)
  · exact hlookup

/-- A name that is bound is known from then on. -/
theorem bound (h : Ready known scopes) (hnew : name ∉ known.flatten) (v : Value) :
    Ready (Script.declareIn name known) (boundScopes name (.value v) scopes) := by
  cases known with
  | nil =>
    cases scopes with
    | nil =>
      have hempty : Scope.Ready [] [] [] := ⟨List.forall_mem_nil _, List.forall_mem_nil _⟩
      exact ⟨hempty.set_new List.not_mem_nil v, trivial⟩
    | cons scope scopes => exact h.elim
  | cons names outer =>
    cases scopes with
    | nil => exact h.elim
    | cons scope scopes => exact ⟨h.1.set_new (fun hmem => hnew (List.mem_append_right _ hmem)) v, h.2⟩

/-- What is known stays so when a value is put in place of another. -/
theorem replaced (h : Ready known scopes) (name : String) (v : Value) : Ready known (replaceSlot name (.value v) scopes) := by
  induction known generalizing scopes with
  | nil =>
    cases scopes with
    | nil => trivial
    | cons scope scopes => exact h.elim
  | cons names outer ih =>
    cases scopes with
    | nil => exact h.elim
    | cons scope scopes =>
      obtain ⟨hscope, houter⟩ := h
      rw [replaceSlot]
      split
      · rename_i hslot
        refine ⟨(hscope.set_new (fun hmem => ?_) v).mono (List.subset_cons_self _ _), houter⟩
        rw [hscope.apart name hmem] at hslot
        cases hslot
      · exact ⟨hscope, ih houter⟩

end Ready

/-! ## Parts of a run -/

/-- No slot is a function. -/
def Functionless (scopes : List Scope) : Prop := AllSlots (fun slot => ∀ f, slot ≠ .function f) scopes

/-- The run does not stop for an assignment to a marked variable without a value. -/
def Halt.Initialized (marks : List Span) (halt : Halt) : Prop :=
  ∀ span name, halt = .fault (.problem span (.assignedUninitialized name)) → span ∉ marks

/-- A part of a run ends with scopes as required, or does not stop for an assignment to a marked variable without a value. -/
def Leads {α : Type} (marks : List Span) (Q : List Scope → Prop) : EStateM.Result Halt State α → Prop
  | .ok _ after => Q after.scopes
  | .error halt _ => halt.Initialized marks

namespace Leads

variable {α β : Type} {marks : List Span} {Q R : List Scope → Prop} {host : Host} {m : State} {span : Span}

/-- A sequence leads to where its second part leads from wherever the first one does. -/
theorem bind {r : Run α} {f : α → Run β} (hr : Leads marks Q (r m)) (hf : ∀ a after, Q after.scopes → Leads marks R (f a after)) :
    Leads marks R ((r >>= f) m) := by
  cases h : r m with
  | ok a after =>
    rw [h] at hr
    rw [bind_ok h]
    exact hf a after hr
  | error halt after =>
    rw [h] at hr
    rw [bind_error h]
    exact hr

/-- A result without a run leads to where the state is. -/
theorem pure {a : α} (hm : Q m.scopes) : Leads marks Q ((pure a : Run α) m) := hm

/-- A run that leads to somewhere leads to anything wider. -/
theorem mono {r : EStateM.Result Halt State α} (h : Leads marks Q r) (hQ : ∀ scopes, Q scopes → R scopes) : Leads marks R r := by
  cases r with
  | ok a after => exact hQ _ h
  | error halt after => exact h

/-- A failure that is not about an assigned variable leads anywhere. -/
theorem failAt {problem : Problem} (h : ∀ name, problem ≠ .assignedUninitialized name) :
    Leads marks Q ((Machine.failAt span problem : Run α) m) := by
  intro other name heq
  cases heq
  exact absurd rfl (h name)

/-- A problem of values is not about an assigned variable. -/
theorem of_values {problem : Problem} (h : problem.OfValues) : ∀ name, problem ≠ .assignedUninitialized name := by
  rintro name rfl
  exact h

/-- A primitive that fails by its values leads to where it began. -/
theorem locate {ε : Type} {wrap : ε → Problem} {r : Except ε α} (hm : Q m.scopes) (hr : ∀ e, r = .error e → (wrap e).OfValues) :
    Leads marks Q (Machine.locate span wrap r m) := by
  cases r with
  | ok a => exact hm
  | error e => exact failAt (of_values (hr e rfl))

/-- A step leaves the scopes as they are. -/
theorem step (hm : Q m.scopes) : Leads marks Q (Machine.step host m) := by
  rw [step_apply]
  rcases m.budget.step (host.clock (m.budget.steps + 1)) with ⟨budget, _ | fault⟩
  · exact hm
  · intro span name heq
    cases heq

/-- Asking leaves the scopes as they are. -/
theorem ask {prompt : String} (hm : Q m.scopes) : Leads marks Q (Machine.ask host span prompt m) := by
  rw [ask_apply]
  cases m.answers with
  | nil =>
    intro other name heq
    cases heq
  | cons answer rest => exact hm

/-- Reading a variable leaves the scopes as they are. -/
theorem readVariable {name : String} (hm : Q m.scopes) : Leads marks Q (Machine.readVariable span name m) := by
  rw [readVariable_apply]
  cases findSlot? name m.scopes with
  | none => exact failAt (by simp)
  | some slot =>
    cases slot with
    | value v => exact hm
    | uninitialized => exact failAt (by simp)
    | function f => exact failAt (by simp)

/-- Without functions no call gets further than to its name. -/
theorem readFunction {name : String} (hm : Functionless m.scopes) : Leads marks Q (Machine.readFunction span name m) := by
  rw [readFunction_apply]
  cases hslot : findSlot? name m.scopes with
  | none => exact failAt (by simp)
  | some slot =>
    cases slot with
    | value v => exact failAt (by simp)
    | uninitialized => exact failAt (by simp)
    | function f => exact absurd rfl (hm.found hslot f)

/-- Assigning to the exports leaves the scopes as they are. -/
theorem assignExports {path : List Value} {v : Value} (hm : Q m.scopes) : Leads marks Q (Machine.assignExports span path v m) := by
  rw [assignExports_apply]
  rcases h : assignedExports path v m.exports with ⟨exports, _ | problem⟩
  · exact hm
  · exact failAt (m := { m with exports }) (of_values (SoundAux.assignedExports_problem h))

/-- A scope around a run leads to what the run leaves behind its innermost scope. -/
theorem inScope {scope : Scope} {body : Run α}
    (h : Leads marks (fun scopes => Q scopes.tail) (body { m with scopes := scope :: m.scopes })) :
    Leads marks Q (Machine.inScope scope body m) := by
  rw [inScope_apply]
  cases hbody : body { m with scopes := scope :: m.scopes } with
  | ok a after =>
    rw [hbody] at h
    exact h
  | error halt after =>
    rw [hbody] at h
    exact h

end Leads

/-! ## Expressions -/

variable {marks : List Span} {host : Host} {fuel : Nat}

/-- Without functions the evaluation of an expression with the given fuel leaves all scopes as they are. -/
structure Calm (marks : List Span) (host : Host) (fuel : Nat) : Prop where
  eval : ∀ {e : Expression} {m : State} {scopes : List Scope}, Functionless scopes → m.scopes = scopes →
    Leads marks (· = scopes) (eval host fuel e m)
  evalAll : ∀ {es : List Expression} {m : State} {scopes : List Scope}, Functionless scopes → m.scopes = scopes →
    Leads marks (· = scopes) (evalAll host fuel es m)
  evalFields : ∀ {table : Table Value} {fields : List (Expression × Expression)} {m : State} {scopes : List Scope},
    Functionless scopes → m.scopes = scopes → Leads marks (· = scopes) (evalFields host fuel table fields m)
  evalPath : ∀ {path : List PathSegment} {m : State} {scopes : List Scope}, Functionless scopes → m.scopes = scopes →
    Leads marks (· = scopes) (evalPath host fuel path m)

/-- Running out of fuel is not about an assigned variable. -/
theorem outOfFuel_initialized : Halt.Initialized marks .outOfFuel := by
  intro span name heq
  cases heq

/-- Without fuel nothing is evaluated. -/
theorem calm_zero : Calm marks host 0 where
  eval _ _ := by unfold Machine.eval; exact outOfFuel_initialized
  evalAll _ _ := outOfFuel_initialized
  evalFields _ _ := outOfFuel_initialized
  evalPath _ _ := outOfFuel_initialized

/-- Among scopes without functions an expression is evaluated without changing them, if what it consists of is. -/
theorem calm_eval (ih : Calm marks host fuel) {e : Expression} {m : State} {scopes : List Scope} (hf : Functionless scopes)
    (hm : m.scopes = scopes) : Leads marks (· = scopes) (eval host (fuel + 1) e m) := by
  cases e with
  | const v => rw [Machine.eval]; exact .pure hm
  | local_ span name => rw [Machine.eval]; exact .readVariable hm
  | array items => rw [Machine.eval]; exact .bind (ih.evalAll hf hm) fun vs after hm => .pure hm
  | object fields => rw [Machine.eval]; exact .bind (ih.evalFields hf hm) fun table after hm => .pure hm
  | unary span op operand =>
    rw [Machine.eval]
    exact .bind (ih.eval hf hm) fun v after hm => .locate hm fun _ => SoundAux.unary_problem
  | arith span op left right =>
    rw [Machine.eval]
    exact .bind (ih.eval hf hm) fun l after hm => .bind (ih.eval hf hm) fun r after hm => .locate hm fun _ => SoundAux.arith_problem
  | compare span op left right =>
    rw [Machine.eval]
    exact .bind (ih.eval hf hm) fun l after hm => .bind (ih.eval hf hm) fun r after hm => .locate hm fun _ => SoundAux.compare_problem
  | logic op left right =>
    rw [Machine.eval]
    refine .bind (ih.eval hf hm) fun l after hm => ?_
    have hright : Leads marks (· = scopes) ((do return .bool (← Machine.eval host fuel right).isTruthy : Run Value) after) :=
      .bind (ih.eval hf hm) fun r after hm => .pure hm
    rcases op with _ | _ <;> cases l.isTruthy
    · exact .pure hm
    · exact hright
    · exact hright
    · exact .pure hm
  | member span base field =>
    rw [Machine.eval]
    exact .bind (ih.eval hf hm) fun v after hm => .locate hm fun _ _ => trivial
  | index span base key =>
    rw [Machine.eval]
    exact .bind (ih.eval hf hm) fun v after hm => .bind (ih.eval hf hm) fun k after hm => .locate hm fun _ _ => trivial
  | call span name args =>
    rw [Machine.eval]
    exact .bind (Q := fun _ => False) (.readFunction (hm ▸ hf)) fun f after h => h.elim
  | builtin span function args =>
    rw [Machine.eval]
    exact .bind (ih.evalAll hf hm) fun vs after hm => .locate hm fun _ _ => trivial
  | output span value =>
    rw [Machine.eval]
    refine .bind (ih.eval hf hm) fun v after hm => .bind (Q := (· = scopes)) ?_ fun _ after hm => .pure hm
    exact hm
  | input span prompt =>
    rw [Machine.eval]
    exact .bind (ih.eval hf hm) fun p after hm => .bind (Q := (· = scopes)) (.ask hm) fun line after hm => .pure hm
  | exports => rw [Machine.eval]; exact hm

/-- Expressions leave the scopes as they are. -/
theorem calm (fuel : Nat) : Calm marks host fuel := by
  induction fuel with
  | zero => exact calm_zero
  | succ fuel ih =>
    refine ⟨calm_eval ih, ?_, ?_, ?_⟩
    · rintro (_ | ⟨e, es⟩) m scopes hf hm
      · exact .pure hm
      · exact .bind (ih.eval hf hm) fun v after hm => .bind (ih.evalAll hf hm) fun vs after hm => .pure hm
    · rintro table (_ | ⟨⟨key, value⟩, fields⟩) m scopes hf hm
      · exact .pure hm
      · exact .bind (ih.eval hf hm) fun k after hm => .bind (ih.eval hf hm) fun v after hm => ih.evalFields hf hm
    · rintro (_ | ⟨_ | key, path⟩) m scopes hf hm
      · exact .pure hm
      · exact .bind (ih.evalPath hf hm) fun keys after hm => .pure hm
      · exact .bind (ih.eval hf hm) fun v after hm => .bind (ih.evalPath hf hm) fun keys after hm => .pure hm

/-! ## Statements -/

/-- A chain without functions whose scopes belong to lists of known names. -/
structure Stable (known : List (List String)) (scopes : List Scope) : Prop where
  ready : Ready known scopes
  functionless : Functionless scopes

namespace Stable

variable {known : List (List String)} {scopes : List Scope} {m : State}

/-- Behind the innermost scope the others are stable. -/
theorem tail (h : Stable known scopes) : Stable known.tail scopes.tail := ⟨h.ready.tail, h.functionless.tail⟩

/-- Entering an orderly block keeps the scopes stable. -/
theorem entered (h : Stable known scopes) {block : Block} (hblock : block.Orderly marks known.flatten) :
    Stable ([] :: known) (bindBlock block [] :: scopes) := by
  refine ⟨h.ready.entered hblock, List.forall_mem_cons.mpr ⟨Scope.All.nil.bindBlock (fun _ => Slot.noConfusion) ?_, h.functionless⟩⟩
  obtain ⟨locals, functions, stmts⟩ := block
  obtain ⟨-, rfl, -⟩ := hblock
  exact List.forall_mem_nil _

/-- An evaluated expression leaves a chain as stable as it was. -/
theorem eval (h : Stable known m.scopes) {e : Expression} : Leads marks (Stable known) (Machine.eval host fuel e m) := by
  have hcalm : Leads marks (· = m.scopes) (Machine.eval host fuel e m) := (calm fuel).eval h.functionless rfl
  exact hcalm.mono fun scopes heq => heq ▸ h

/-- Evaluating the indices of a place keeps the scopes stable. -/
theorem evalPath (h : Stable known m.scopes) {path : List PathSegment} :
    Leads marks (Stable known) (Machine.evalPath host fuel path m) := by
  have hcalm : Leads marks (· = m.scopes) (Machine.evalPath host fuel path m) := (calm fuel).evalPath h.functionless rfl
  exact hcalm.mono fun scopes heq => heq ▸ h

/-- Binding a new name keeps the scopes stable, with this name known. -/
theorem bindName (h : Stable known m.scopes) {name : String} (hnew : name ∉ known.flatten) (v : Value) :
    Leads marks (Stable (Script.declareIn name known)) (Machine.bind name (.value v) m) := by
  rw [bindName_boundScopes]
  exact ⟨h.ready.bound hnew v, h.functionless.bound (fun _ => Slot.noConfusion) name⟩

/-- An assignment to a marked variable finds a value there. -/
theorem assignVariable (h : Stable known m.scopes) {span : Span} {name : String} (hname : span ∈ marks → name ∈ known.flatten)
    (path : List Value) (v : Value) : Leads marks (Stable known) (Machine.assignVariable span name path v m) := by
  rw [assignVariable_apply]
  cases hslot : findSlot? name m.scopes with
  | none => exact .failAt (by simp)
  | some slot =>
    cases slot with
    | value current =>
      have hafter : Stable known (replaceSlot name (.value (Value.modifyPath (fun _ => v) path current).1) m.scopes) :=
        ⟨h.ready.replaced name _, h.functionless.replaced (fun _ => Slot.noConfusion) name⟩
      dsimp only
      split
      · exact hafter
      · exact Leads.failAt (m := { m with scopes := _ }) (by simp)
    | uninitialized =>
      intro other name' heq
      cases heq
      intro hmarked
      obtain ⟨v, hv⟩ := h.ready.found (hname hmarked)
      rw [hv] at hslot
      cases hslot
    | function f => exact .failAt (by simp)

end Stable

/-- The known names behind a statement. -/
def namesBehind (s : Statement) (known : List (List String)) : List (List String) := s.bound?.elim known (Script.declareIn · known)

/-- Behind a statement the name that it binds is known, and those that were known before. -/
theorem flatten_namesBehind (s : Statement) (known : List (List String)) :
    (namesBehind s known).flatten = s.bound?.toList ++ known.flatten := by
  unfold namesBehind
  cases s.bound? with
  | none => rfl
  | some name => exact Script.flatten_declareIn name known

/-- A statement adds names to the innermost scope only. -/
theorem tail_namesBehind (s : Statement) (known : List (List String)) : (namesBehind s known).tail = known.tail := by
  unfold namesBehind
  cases s.bound? with
  | none => rfl
  | some name => exact Script.tail_declareIn name known

/-- Orderly statements with the given fuel keep a chain stable, and what they bind is known behind them. -/
structure Steady (marks : List Span) (host : Host) (fuel : Nat) : Prop where
  execBlock : ∀ {block : Block} {known : List (List String)} {m : State}, block.Orderly marks known.flatten → Stable known m.scopes →
    Leads marks (Stable known) (execBlock host fuel block m)
  execAll : ∀ {stmts : List Statement} {known : List (List String)} {m : State}, Statement.AllOrderly marks known.flatten stmts →
    Stable known m.scopes → Leads marks (fun scopes => Stable known.tail scopes.tail) (execAll host fuel stmts m)
  exec : ∀ {s : Statement} {known : List (List String)} {m : State}, s.Orderly marks known.flatten → Stable known m.scopes →
    Leads marks (Stable (namesBehind s known)) (exec host fuel s m)
  loop : ∀ {cond : Expression} {body : Block} {known : List (List String)} {m : State}, body.Orderly marks known.flatten →
    Stable known m.scopes → Leads marks (Stable known) (loop host fuel cond body m)

/-- Without fuel nothing is executed. -/
theorem steady_zero : Steady marks host 0 where
  execBlock _ _ := outOfFuel_initialized
  execAll _ _ := outOfFuel_initialized
  exec _ _ := by unfold Machine.exec; exact outOfFuel_initialized
  loop _ _ := outOfFuel_initialized

/-- An orderly statement keeps the scopes stable, with the names behind it, if what it consists of does. -/
theorem steady_exec (ih : Steady marks host fuel) {s : Statement} {known : List (List String)} {m : State}
    (hs : s.Orderly marks known.flatten) (hm : Stable known m.scopes) :
    Leads marks (Stable (namesBehind s known)) (exec host (fuel + 1) s m) := by
  unfold Machine.exec
  refine .bind (Leads.step hm) fun _ after hm => ?_
  cases s with
  | let_ name value => exact .bind hm.eval fun v after hm => .bind (hm.bindName hs v) fun _ after hm => .pure hm
  | assign target value =>
    refine .bind hm.eval fun v after hm => ?_
    cases target with
    | local_ span name path =>
      exact .bind hm.evalPath fun keys after hm => .bind (hm.assignVariable hs keys v) fun _ after hm => .pure hm
    | exports span path =>
      exact .bind hm.evalPath fun keys after hm => .bind (Q := Stable known) (.assignExports hm) fun _ after hm => .pure hm
  | expr e => exact .bind hm.eval fun v after hm => .pure hm
  | if_ cond body otherwise =>
    cases otherwise with
    | none =>
      refine .bind hm.eval fun v after hm => ?_
      split
      · exact ih.execBlock hs hm
      · exact .pure hm
    | some block =>
      refine .bind hm.eval fun v after hm => ?_
      split
      · exact ih.execBlock hs.1 hm
      · exact ih.execBlock hs.2 hm
  | while_ span cond body => exact ih.loop hs hm
  | return_ value =>
    cases value with
    | none => exact .pure hm
    | some e => exact .bind hm.eval fun v after hm => .pure hm
  | break_ => exact .pure hm
  | continue_ => exact .pure hm
  | block body => exact ih.execBlock hs hm

/-- A loop keeps the scopes stable if its body does. -/
theorem steady_loop (ih : Steady marks host fuel) {cond : Expression} {body : Block} {known : List (List String)} {m : State}
    (hbody : body.Orderly marks known.flatten) (hm : Stable known m.scopes) :
    Leads marks (Stable known) (loop host (fuel + 1) cond body m) := by
  rw [Machine.loop]
  refine .bind hm.eval fun v after hm => ?_
  split
  · exact .pure hm
  · refine .bind (ih.execBlock hbody hm) fun flow after hm => ?_
    have hagain : Leads marks (Stable known) ((do
        Machine.step host
        Machine.loop host fuel cond body : Run Flow) after) :=
      .bind (Q := Stable known) (.step hm) fun _ after hm => ih.loop hbody hm
    cases flow with
    | break_ => exact .pure hm
    | return_ v => exact .pure hm
    | normal => exact hagain
    | continue_ => exact hagain

/-- Orderly statements keep a chain stable. -/
theorem steady (fuel : Nat) : Steady marks host fuel := by
  induction fuel with
  | zero => exact steady_zero
  | succ fuel ih =>
    refine ⟨?_, ?_, steady_exec ih, steady_loop ih⟩
    · intro block known m hblock hm
      have hentered := hm.entered hblock
      obtain ⟨locals, functions, stmts⟩ := block
      have hstmts : Statement.AllOrderly marks ([] :: known).flatten stmts := hblock.2.2
      exact .inScope (ih.execAll hstmts hentered)
    · rintro (_ | ⟨s, stmts⟩) known m hstmts hm
      · exact .pure hm.tail
      · refine .bind (ih.exec hstmts.1 hm) fun flow after hm => ?_
        have hbehind : Stable known.tail after.scopes.tail := tail_namesBehind s known ▸ hm.tail
        cases flow with
        | normal =>
          have hothers : Statement.AllOrderly marks (namesBehind s known).flatten stmts := flatten_namesBehind s known ▸ hstmts.2
          have hrest := ih.execAll hothers hm
          rwa [tail_namesBehind] at hrest
        | break_ => exact .pure hbehind
        | continue_ => exact .pure hbehind
        | return_ v => exact .pure hbehind

/-- No run of an orderly program stops for an assignment to a marked variable that has no value yet. -/
theorem runFor_initialized {program : Program} (h : program.body.Orderly marks []) (fuel : Nat) (limits : Limits) (answers : List String) :
    ∀ halt, (runFor host fuel limits answers program).halt = some halt → halt.Initialized marks := by
  have hstart : Stable [] (State.start limits answers).scopes := ⟨trivial, List.forall_mem_nil _⟩
  have hbody : program.body.Orderly marks ([] : List (List String)).flatten := h
  have hrun : Leads marks (fun _ => True) (runWith host fuel program (.start limits answers)) := by
    unfold runWith
    refine .bind ((steady fuel).execBlock hbody hstart) fun flow after hm => ?_
    cases flow with
    | normal => exact trivial
    | break_ | continue_ | return_ v =>
      intro span name heq
      cases heq
  intro halt hhalt
  unfold runFor at hhalt
  cases hresult : runWith host fuel program (.start limits answers) with
  | ok _ after =>
    rw [hresult] at hhalt
    cases hhalt
  | error stopped after =>
    rw [hresult] at hhalt hrun
    obtain rfl := Option.some.inj hhalt
    exact hrun

end HostScript.Machine
