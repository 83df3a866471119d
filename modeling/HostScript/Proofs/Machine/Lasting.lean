import Mathlib
import HostScript.Proofs.Machine.Slots
import HostScript.Proofs.Program.Constants
import HostScript.Proofs.Value.Table

/-!
# Classes of values that runs do not leave

`Lasting V` says of a class of values that every operation of a script stays in it. A part of a run with its constants in the class
then ends with values of the class only if it is started with such values: in its variables and exports, in what it has written and in
its result. This is `Lasting.keeps`; it goes by induction on the fuel, with one case for each form of expression and statement.
-/

namespace HostScript.Machine

open Program (Expression Statement Block Place PathSegment Function PathConstantsIn)

/-- A class of values that no operation of a script leaves. -/
structure Lasting (V : Value → Prop) : Prop where
  null : V .null
  bool (b : Bool) : V (.bool b)
  string (text : String) : V (.string text)
  array {items : List Value} (h : ∀ v ∈ items, V v) : V (.array items)
  items {items : List Value} (h : V (.array items)) : ∀ v ∈ items, V v
  object {table : Table Value} (h : ∀ entry ∈ table.entries, V entry.1 ∧ V entry.2) : V (.object table)
  entries {table : Table Value} (h : V (.object table)) : ∀ entry ∈ table.entries, V entry.1 ∧ V entry.2
  unary {op : Script.UnaryOp} {operand v : Value} (h : V operand) (hv : unary op operand = .ok v) : V v
  arith {op : Script.ArithOp} {left right v : Value} (hleft : V left) (hright : V right) (hv : arith op left right = .ok v) : V v
  apply {function : Builtin} {args : List Value} {v : Value} (h : ∀ arg ∈ args, V arg) (hv : function.apply args = .ok v) : V v

/-! ## What a state holds -/

/-- A slot holds a value of a class, or a function with its constants in the class. -/
def Slot.Holds (V : Value → Prop) : Slot → Prop
  | .uninitialized => True
  | .value v => V v
  | .function f => f.ConstantsIn V

/-- What was written is of a class. -/
def Event.Holds (V : Value → Prop) : Event → Prop
  | .output v => V v
  | .prompt _ => True

/-- All values in a state are of a class. -/
structure State.Holds (V : Value → Prop) (m : State) : Prop where
  scopes : AllSlots (Slot.Holds V) m.scopes
  exports : V m.exports
  events : ∀ event ∈ m.events, event.Holds V

/-- The value with which a function is left is of a class. -/
def Flow.Holds (V : Value → Prop) : Flow → Prop
  | .return_ v => V v
  | _ => True

/-- A part of a run ends, in one way or the other, in a state with values of a class only, and with a result as required. -/
def Ends {α : Type} (V : Value → Prop) (Q : α → Prop) : EStateM.Result Halt State α → Prop
  | .ok a after => Q a ∧ after.Holds V
  | .error _ after => after.Holds V

namespace Lasting

variable {V : Value → Prop} (hV : Lasting V)

/-! ## Operations -/

section Operations

include hV

/-- A property of values that lasts holds of an object without entries. -/
theorem emptyObject : V Value.emptyObject := hV.object (List.forall_mem_nil _)

/-- An object into which an entry of the class is put is of the class. -/
theorem insertEntry {table : Table Value} {key value : Value} (h : V (.object table)) (hkey : V key) (hvalue : V value) :
    V (.object (Value.insertEntry key value table)) := by
  refine hV.object fun entry hentry => ?_
  rcases Table.mem_insert hentry with rfl | hold | ⟨here, old, hhere, rfl⟩
  · exact ⟨hkey, hvalue⟩
  · exact hV.entries h entry hold
  · exact ⟨(hV.entries h _ hhere).1, hvalue⟩

/-- What is found in an object of the class is of the class, and so is null. -/
theorem valueAt {table : Table Value} (h : V (.object table)) (key : Value) : V ((Value.valueAt? key table).getD .null) := by
  cases hfound : Value.valueAt? key table with
  | none => exact hV.null
  | some value =>
    obtain ⟨index, here, -, hentry⟩ := Table.get?_eq_some hfound
    exact (hV.entries h _ (List.mem_of_getElem? hentry)).2

/-- What is read at a key is of the class. -/
theorem get {container key v : Value} (h : V container) (hv : container.get key = .ok v) : V v := by
  unfold Value.get at hv
  split at hv
  · obtain rfl := Except.ok.inj hv
    exact hV.valueAt h _
  · split at hv
    · rename_i hitem
      obtain rfl := Except.ok.inj hv
      obtain ⟨i, -, hi⟩ := Option.bind_eq_some_iff.mp hitem
      exact hV.items h _ (List.mem_of_getElem? hi)
    · nomatch hv
  · split at hv
    · obtain rfl := Except.ok.inj hv
      exact hV.string _
    · nomatch hv
  · nomatch hv

/-- Replacing an item of an array by a value with the property keeps it. -/
theorem set {items : List Value} {v : Value} (h : V (.array items)) (hv : V v) (i : Nat) : V (.array (items.set i v)) := by
  refine hV.array fun w hw => ?_
  rcases List.mem_or_eq_of_mem_set hw with hw | rfl
  · exact hV.items h w hw
  · exact hv

/-- An assignment inside a value leaves a value of the class. -/
theorem modifyPath {path : List Value} {v target : Value} (hpath : ∀ key ∈ path, V key) (hv : V v) (h : V target) :
    V (Value.modifyPath (fun _ => v) path target).1 := by
  induction path generalizing target with
  | nil => exact hv
  | cons key path ih =>
    obtain ⟨hkey, hpath⟩ := List.forall_mem_cons.mp hpath
    cases target with
    | object table => exact hV.insertEntry h hkey (ih hpath (hV.valueAt h key))
    | array items =>
      rw [Value.modifyPath]
      split
      · exact h
      · split
        · exact h
        · rename_i hitem
          exact hV.set h (ih hpath (hV.items h _ (List.mem_of_getElem? hitem))) _
    | _ => exact h

/-- The outcome of a comparison is true or false, of which the property holds. -/
theorem compare {op : Script.CompareOp} {left right v : Value} (hv : Machine.compare op left right = .ok v) : V v := by
  unfold Machine.compare at hv
  split at hv <;> cases hv <;> exact hV.bool _

end Operations

end Lasting

/-! ## Parts of a run -/

namespace Ends

variable {V : Value → Prop} {host : Host} {α β : Type} {Q : α → Prop} {R : β → Prop} {m : State}

/-- Two parts one after the other end as required if the first does and the second does from where the first ends. -/
theorem bind {r : Run α} {f : α → Run β} (hr : Ends V Q (r m)) (hf : ∀ a after, Q a → after.Holds V → Ends V R (f a after)) :
    Ends V R ((r >>= f) m) := by
  cases h : r m with
  | ok a after =>
    rw [h] at hr
    rw [bind_ok h]
    exact hf a after hr.1 hr.2
  | error halt after =>
    rw [h] at hr
    rw [bind_error h]
    exact hr

/-- A value ends in the state in which it begins. -/
theorem pure {a : α} (hm : m.Holds V) (ha : Q a) : Ends V Q ((pure a : Run α) m) := ⟨ha, hm⟩

/-- What a part leads to, where its outcome is known. -/
theorem of_ok {r : EStateM.Result Halt State α} {a : α} {after : State} (h : Ends V Q r) (hr : r = .ok a after) :
    Q a ∧ after.Holds V := by
  subst hr
  exact h

/-- The state that a part leaves holds values with the property only. -/
theorem leaves {r : EStateM.Result Halt State α} (h : Ends V Q r) : (leaves r).Holds V := by
  cases r with
  | ok a after => exact h.2
  | error halt after => exact h

/-- An operation on values ends in the state in which it begins. -/
theorem locate {ε : Type} {span : Span} {wrap : ε → Problem} {r : Except ε α} (hm : m.Holds V) (hr : ∀ a, r = .ok a → Q a) :
    Ends V Q (Machine.locate span wrap r m) := by
  cases r with
  | ok a => exact ⟨hr a rfl, hm⟩
  | error e => exact hm

/-- A step brings in no value. -/
theorem step (hm : m.Holds V) : Ends V (fun _ => True) (Machine.step host m) := by
  rw [step_apply]
  rcases m.budget.step (host.clock (m.budget.steps + 1)) with ⟨budget, _ | fault⟩
  · exact ⟨trivial, hm.scopes, hm.exports, hm.events⟩
  · exact ⟨hm.scopes, hm.exports, hm.events⟩

/-- A question to the host is answered with a line, and brings no value into the state. -/
theorem ask {span : Span} {prompt : String} (hm : m.Holds V) : Ends V (fun _ => True) (Machine.ask host span prompt m) := by
  have hevents : ∀ event ∈ .prompt prompt :: m.events, event.Holds V := List.forall_mem_cons.mpr ⟨trivial, hm.events⟩
  rw [ask_apply]
  cases m.answers with
  | nil => exact ⟨hm.scopes, hm.exports, hevents⟩
  | cons answer rest => exact ⟨trivial, hm.scopes, hm.exports, hevents⟩

/-- A value with the property may be output. -/
theorem output {v : Value} (hm : m.Holds V) (hv : V v) : Ends V (fun _ => True) (record (.output v) m) :=
  ⟨trivial, hm.scopes, hm.exports, List.forall_mem_cons.mpr ⟨hv, hm.events⟩⟩

/-- A variable that is read has a value with the property. -/
theorem readVariable {span : Span} {name : String} (hm : m.Holds V) : Ends V V (Machine.readVariable span name m) := by
  rw [readVariable_apply]
  cases hslot : findSlot? name m.scopes with
  | none => exact hm
  | some slot =>
    cases slot with
    | value v => exact ⟨hm.scopes.found hslot, hm⟩
    | uninitialized => exact hm
    | function f => exact hm

/-- A function that is read holds constants with the property only. -/
theorem readFunction {span : Span} {name : String} (hm : m.Holds V) :
    Ends V (Function.ConstantsIn V) (Machine.readFunction span name m) := by
  rw [readFunction_apply]
  cases hslot : findSlot? name m.scopes with
  | none => exact hm
  | some slot =>
    cases slot with
    | function f => exact ⟨hm.scopes.found hslot, hm⟩
    | uninitialized => exact hm
    | value v => exact hm

/-- A value with the property may be bound. -/
theorem bindName {name : String} {v : Value} (hm : m.Holds V) (hv : V v) :
    Ends V (fun _ => True) (Machine.bind name (.value v) m) := by
  have hslot : Slot.Holds V (.value v) := hv
  rw [bindName_boundScopes]
  exact ⟨trivial, hm.scopes.bound hslot name, hm.exports, hm.events⟩

/-- A value with the property may be assigned to a variable, along keys that have it. -/
theorem assignVariable (hV : Lasting V) {span : Span} {name : String} {path : List Value} {v : Value} (hm : m.Holds V)
    (hpath : ∀ key ∈ path, V key) (hv : V v) : Ends V (fun _ => True) (Machine.assignVariable span name path v m) := by
  rw [assignVariable_apply]
  cases hslot : findSlot? name m.scopes with
  | none => exact hm
  | some slot =>
    cases slot with
    | value current =>
      have hcurrent : V current := hm.scopes.found hslot
      have hupdated : Slot.Holds V (.value (Value.modifyPath (fun _ => v) path current).1) := hV.modifyPath hpath hv hcurrent
      have hafter := hm.scopes.replaced hupdated name
      dsimp only
      split
      · exact ⟨trivial, hafter, hm.exports, hm.events⟩
      · exact ⟨hafter, hm.exports, hm.events⟩
    | uninitialized => exact hm
    | function f => exact hm

/-- A value with the property may be assigned to the exports, along keys that have it. -/
theorem assignExports (hV : Lasting V) {span : Span} {path : List Value} {v : Value} (hm : m.Holds V) (hpath : ∀ key ∈ path, V key)
    (hv : V v) : Ends V (fun _ => True) (Machine.assignExports span path v m) := by
  have hassigned : V (assignedExports path v m.exports).1 := by
    unfold assignedExports
    split
    · exact hv
    · exact hm.exports
    · exact hV.modifyPath hpath hv hm.exports
  rw [assignExports_apply]
  generalize assignedExports path v m.exports = assigned at hassigned
  obtain ⟨exports, _ | problem⟩ := assigned
  · exact ⟨trivial, hm.scopes, hassigned, hm.events⟩
  · exact ⟨hm.scopes, hassigned, hm.events⟩

/-- A part whose state is changed when it ends. -/
theorem leaving {r : EStateM.Result Halt State α} {f : State → State} (h : Ends V Q r) (hf : ∀ after, after.Holds V → (f after).Holds V) :
    Ends V Q (Machine.leaving f r) := by
  cases r with
  | ok a after => exact ⟨h.1, hf after h.2⟩
  | error halt after => exact hf after h

/-- A part in a scope of its own ends as it does with the functions of the block in front. -/
theorem inScope {block : Block} {body : Run α}
    (h : Ends V Q (body { m with scopes := bindBlock block [] :: m.scopes })) : Ends V Q (Machine.inScope (bindBlock block []) body m) := by
  rw [inScope_apply]
  exact h.leaving fun after hafter => ⟨hafter.scopes.tail, hafter.exports, hafter.events⟩

/-- A call ends as its body does in the frame of the call. -/
theorem inCall {name : String} {frame : Scope} {body : Run α} (hm : m.Holds V) (h : Ends V Q (body (m.called name frame))) :
    Ends V Q (Machine.inCall name frame body m) := by
  rw [inCall_apply]
  split
  · exact hm
  · exact h.leaving fun after hafter => ⟨hm.scopes.restored hafter.scopes _, hafter.exports, hafter.events⟩

end Ends

/-- A block begins with its functions in its scope. -/
theorem State.Holds.entered {V : Value → Prop} {m : State} (hm : m.Holds V) {block : Block} (hblock : block.ConstantsIn V) :
    State.Holds V { m with scopes := bindBlock block [] :: m.scopes } :=
  ⟨List.forall_mem_cons.mpr ⟨Scope.All.nil.bindBlock trivial hblock.functions, hm.scopes⟩, hm.exports, hm.events⟩

/-- A call begins with the arguments in its frame. -/
theorem State.Holds.called {V : Value → Prop} {m : State} (hm : m.Holds V) {f : Function} (hf : f.ConstantsIn V) {args : List Value}
    (hargs : ∀ v ∈ args, V v) (name : String) : (m.called name (callFrame f args)).Holds V :=
  ⟨List.forall_mem_cons.mpr ⟨Scope.All.callFrame trivial hargs hf.body.functions, hm.scopes.drop _⟩, hm.exports, hm.events⟩

/-! ## All parts -/

/-- The evaluations and executions with the given fuel end with values of a class only if they are started with such values. -/
structure Keeps (V : Value → Prop) (host : Host) (fuel : Nat) : Prop where
  eval : ∀ {e : Expression} {m : State}, e.ConstantsIn V → m.Holds V → Ends V V (eval host fuel e m)
  evalAll : ∀ {es : List Expression} {m : State}, Expression.AllConstantsIn V es → m.Holds V →
    Ends V (fun vs => ∀ v ∈ vs, V v) (evalAll host fuel es m)
  evalFields : ∀ {table : Table Value} {fields : List (Expression × Expression)} {m : State}, V (.object table) →
    Expression.FieldConstantsIn V fields → m.Holds V → Ends V (fun table => V (.object table)) (evalFields host fuel table fields m)
  evalPath : ∀ {path : List PathSegment} {m : State}, PathConstantsIn V path → m.Holds V →
    Ends V (fun keys => ∀ key ∈ keys, V key) (evalPath host fuel path m)
  execBlock : ∀ {block : Block} {m : State}, block.ConstantsIn V → m.Holds V → Ends V (Flow.Holds V) (execBlock host fuel block m)
  execAll : ∀ {stmts : List Statement} {m : State}, Statement.AllConstantsIn V stmts → m.Holds V →
    Ends V (Flow.Holds V) (execAll host fuel stmts m)
  exec : ∀ {s : Statement} {m : State}, s.ConstantsIn V → m.Holds V → Ends V (Flow.Holds V) (exec host fuel s m)
  loop : ∀ {cond : Expression} {body : Block} {m : State}, cond.ConstantsIn V → body.ConstantsIn V → m.Holds V →
    Ends V (Flow.Holds V) (loop host fuel cond body m)

namespace Lasting

variable {V : Value → Prop} {host : Host} {m : State}

/-- Without fuel nothing is done. -/
theorem keeps_zero : Keeps V host 0 where
  eval _ hm := by unfold Machine.eval; exact hm
  evalAll _ hm := hm
  evalFields _ _ hm := hm
  evalPath _ hm := hm
  execBlock _ hm := hm
  execAll _ hm := hm
  exec _ hm := by unfold Machine.exec; exact hm
  loop _ _ hm := hm

section Step

variable (hV : Lasting V) {fuel : Nat} (ih : Keeps V host fuel)
include hV ih

/-- Evaluating an expression. -/
theorem keeps_eval {e : Expression} (he : e.ConstantsIn V) (hm : m.Holds V) : Ends V V (eval host (fuel + 1) e m) := by
  cases e with
  | const v => rw [Machine.eval]; exact .pure hm he
  | local_ span name => rw [Machine.eval]; exact .readVariable hm
  | array items =>
    rw [Machine.eval]
    exact .bind (ih.evalAll he hm) fun vs after hvs hm => .pure hm (hV.array hvs)
  | object fields =>
    rw [Machine.eval]
    exact .bind (ih.evalFields hV.emptyObject he hm) fun table after htable hm => .pure hm htable
  | unary span op operand =>
    rw [Machine.eval]
    exact .bind (ih.eval he hm) fun v after hv hm => .locate hm fun _ => hV.unary hv
  | arith span op left right =>
    rw [Machine.eval]
    exact .bind (ih.eval he.1 hm) fun l after hl hm => .bind (ih.eval he.2 hm) fun r after hr hm => .locate hm fun _ => hV.arith hl hr
  | compare span op left right =>
    rw [Machine.eval]
    exact .bind (ih.eval he.1 hm) fun l after _ hm => .bind (ih.eval he.2 hm) fun r after _ hm => .locate hm fun _ => hV.compare
  | logic op left right =>
    rw [Machine.eval]
    refine .bind (ih.eval he.1 hm) fun l after _ hm => ?_
    have hright : Ends V V ((do return .bool (← eval host fuel right).isTruthy : Run Value) after) :=
      .bind (ih.eval he.2 hm) fun r after _ hm => .pure hm (hV.bool _)
    rcases op with _ | _ <;> cases l.isTruthy
    · exact .pure hm (hV.bool _)
    · exact hright
    · exact hright
    · exact .pure hm (hV.bool _)
  | member span base field =>
    rw [Machine.eval]
    exact .bind (ih.eval he hm) fun v after hv hm => .locate hm fun _ => hV.get hv
  | index span base key =>
    rw [Machine.eval]
    exact .bind (ih.eval he.1 hm) fun v after hv hm => .bind (ih.eval he.2 hm) fun k after _ hm => .locate hm fun _ => hV.get hv
  | call span name args =>
    rw [Machine.eval]
    refine .bind (.readFunction hm) fun f after hf hm => ?_
    -- the check of the number of arguments stands in front of the call proper
    have called : ∀ {m : State}, m.Holds V → Ends V V ((do
        let vs ← evalAll host fuel args
        match ← inCall name (callFrame f vs) (execAll host fuel f.body.stmts) with
        | .return_ v => return v
        | _ => return .null : Run Value) m) := by
      intro m hm
      refine .bind (ih.evalAll he hm) fun vs after hvs hm => ?_
      refine .bind (.inCall hm (ih.execAll hf.body.stmts (hm.called hf hvs name))) fun flow after hflow hm => ?_
      cases flow with
      | return_ v => exact .pure hm hflow
      | normal => exact .pure hm hV.null
      | break_ => exact .pure hm hV.null
      | continue_ => exact .pure hm hV.null
    dsimp only
    split
    · exact .bind (show Ends V (fun _ => True) (failAt span _ _) from hm) fun _ after _ hm => called hm
    · exact called hm
  | builtin span function args =>
    rw [Machine.eval]
    exact .bind (ih.evalAll he hm) fun vs after hvs hm => .locate hm fun _ => hV.apply hvs
  | output span value =>
    rw [Machine.eval]
    exact .bind (ih.eval he hm) fun v after hv hm => .bind (.output hm hv) fun _ after _ hm => .pure hm hV.null
  | input span prompt =>
    rw [Machine.eval]
    exact .bind (ih.eval he hm) fun p after _ hm => .bind (.ask hm) fun line after _ hm => .pure hm (hV.string _)
  | exports => rw [Machine.eval]; exact ⟨hm.exports, hm⟩

/-- Executing a statement. -/
theorem keeps_exec {s : Statement} (hs : s.ConstantsIn V) (hm : m.Holds V) : Ends V (Flow.Holds V) (exec host (fuel + 1) s m) := by
  unfold Machine.exec
  refine .bind (.step hm) fun _ after _ hm => ?_
  cases s with
  | let_ name value =>
    exact .bind (ih.eval hs hm) fun v after hv hm => .bind (.bindName hm hv) fun _ after _ hm => .pure hm trivial
  | assign target value =>
    refine .bind (ih.eval hs.2 hm) fun v after hv hm => ?_
    cases target with
    | local_ span name path =>
      exact .bind (ih.evalPath hs.1 hm) fun keys after hkeys hm => .bind (.assignVariable hV hm hkeys hv) fun _ after _ hm =>
        .pure hm trivial
    | exports span path =>
      exact .bind (ih.evalPath hs.1 hm) fun keys after hkeys hm => .bind (.assignExports hV hm hkeys hv) fun _ after _ hm =>
        .pure hm trivial
  | expr e => exact .bind (ih.eval hs hm) fun v after _ hm => .pure hm trivial
  | if_ cond body otherwise =>
    cases otherwise with
    | none =>
      refine .bind (ih.eval hs.1 hm) fun v after _ hm => ?_
      split
      · exact ih.execBlock hs.2 hm
      · exact .pure hm trivial
    | some block =>
      refine .bind (ih.eval hs.1 hm) fun v after _ hm => ?_
      split
      · exact ih.execBlock hs.2.1 hm
      · exact ih.execBlock hs.2.2 hm
  | while_ span cond body => exact ih.loop hs.1 hs.2 hm
  | return_ value =>
    cases value with
    | none => exact .pure hm hV.null
    | some e => exact .bind (ih.eval hs hm) fun v after hv hm => .pure hm hv
  | break_ => exact .pure hm trivial
  | continue_ => exact .pure hm trivial
  | block body => exact ih.execBlock hs hm

omit hV in
/-- A turn of a loop. -/
theorem keeps_loop {cond : Expression} {body : Block} (hcond : cond.ConstantsIn V) (hbody : body.ConstantsIn V) (hm : m.Holds V) :
    Ends V (Flow.Holds V) (loop host (fuel + 1) cond body m) := by
  rw [Machine.loop]
  refine .bind (ih.eval hcond hm) fun v after _ hm => ?_
  split
  · exact .pure hm trivial
  · refine .bind (ih.execBlock hbody hm) fun flow after hflow hm => ?_
    cases flow with
    | break_ => exact .pure hm trivial
    | return_ v => exact .pure hm hflow
    | normal => exact .bind (.step hm) fun _ after _ hm => ih.loop hcond hbody hm
    | continue_ => exact .bind (.step hm) fun _ after _ hm => ih.loop hcond hbody hm

/-- A part with one more step of fuel. -/
theorem keeps_succ : Keeps V host (fuel + 1) := by
  refine ⟨keeps_eval hV ih, ?_, ?_, ?_, ?_, ?_, keeps_exec hV ih, keeps_loop ih⟩
  · rintro (_ | ⟨e, es⟩) m hes hm
    · exact .pure hm (List.forall_mem_nil _)
    · exact .bind (ih.eval hes.1 hm) fun v after hv hm => .bind (ih.evalAll hes.2 hm) fun vs after hvs hm =>
        .pure hm (List.forall_mem_cons.mpr ⟨hv, hvs⟩)
  · rintro table (_ | ⟨⟨key, value⟩, fields⟩) m htable hfields hm
    · exact .pure hm htable
    · exact .bind (ih.eval hfields.1.1 hm) fun k after hk hm => .bind (ih.eval hfields.1.2 hm) fun v after hv hm =>
        ih.evalFields (hV.insertEntry htable hk hv) hfields.2 hm
  · rintro (_ | ⟨_ | key, path⟩) m hpath hm
    · exact .pure hm (List.forall_mem_nil _)
    · exact .bind (ih.evalPath hpath hm) fun keys after hkeys hm => .pure hm (List.forall_mem_cons.mpr ⟨hV.string _, hkeys⟩)
    · exact .bind (ih.eval hpath.1 hm) fun v after hv hm => .bind (ih.evalPath hpath.2 hm) fun keys after hkeys hm =>
        .pure hm (List.forall_mem_cons.mpr ⟨hv, hkeys⟩)
  · intro block m hblock hm
    exact .inScope (ih.execAll hblock.stmts (hm.entered hblock))
  · rintro (_ | ⟨s, stmts⟩) m hstmts hm
    · exact .pure hm trivial
    · refine .bind (ih.exec hstmts.1 hm) fun flow after hflow hm => ?_
      cases flow with
      | normal => exact ih.execAll hstmts.2 hm
      | break_ => exact .pure hm hflow
      | continue_ => exact .pure hm hflow
      | return_ v => exact .pure hm hflow

end Step

/-- Every part of a run, whatever its fuel, ends with values of the class only if it is started with such values. -/
theorem keeps (hV : Lasting V) (fuel : Nat) : Keeps V host fuel := by
  induction fuel with
  | zero => exact keeps_zero
  | succ fuel ih => exact keeps_succ hV ih

end Lasting

end HostScript.Machine
