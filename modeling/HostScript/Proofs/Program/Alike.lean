import Mathlib
import HostScript.Proofs.Program.Occurrence
import HostScript.Proofs.Script.Grammar

/-!
# Contexts that are alike

Of what surrounds a part of a script only the bindings of the names count, and not the order in which they were declared.
`Context.Alike` is this equality of contexts. A block is entered exactly if all that is declared in it can be told apart
(`Context.enter_eq_ok_iff`), so blocks that declare the same in any order lead from alike contexts to alike contexts (`enter_alike`).
-/

namespace HostScript.Program

open Script (Expr Stmt Ident Module Otherwise)
open NamesAux (bind_eq_ok of_params of_hoist)

/-! ## Results that match -/

/-- Two results are both refusals, or both are accepted and related. -/
inductive Matched {ε ε' α β : Type} (R : α → β → Prop) : Except ε α → Except ε' β → Prop
  | refused (fault : ε) (fault' : ε') : Matched R (.error fault) (.error fault')
  | accepted {a : α} {b : β} (h : R a b) : Matched R (.ok a) (.ok b)

namespace Matched

variable {ε ε' α β α' β' : Type} {R : α → β → Prop} {r : Except ε α} {r' : Except ε' β}

/-- Two refusals match, whatever they report. -/
theorem refuse (span span' : Span) (problem problem' : ResolveProblem) :
    Matched R (Program.refuse span problem : Resolved α) (Program.refuse span' problem' : Resolved β) := .refused _ _

/-- Sequences of parts that match. -/
theorem bind {S : α' → β' → Prop} {f : α → Except ε α'} {f' : β → Except ε' β'} (h : Matched R r r')
    (hf : ∀ a b, R a b → Matched S (f a) (f' b)) : Matched S (r >>= f) (r' >>= f') := by
  cases h with
  | refused fault fault' => exact .refused fault fault'
  | accepted hab => exact hf _ _ hab

/-- Results still match after their problems have been wrapped. -/
theorem mapError {δ δ' : Type} (h : Matched R r r') (f : ε → δ) (f' : ε' → δ') : Matched R (r.mapError f) (r'.mapError f') := by
  cases h with
  | refused fault fault' => exact .refused (f fault) (f' fault')
  | accepted hab => exact .accepted hab

/-- Matched results under one condition. -/
theorem ite {c : Prop} [Decidable c] {q : Except ε α} {q' : Except ε' β} (h : Matched R r r') (hq : Matched R q q') :
    Matched R (if c then r else q) (if c then r' else q') := by
  split
  · exact h
  · exact hq

/-- Results match if what the one accepts the other accepts too. -/
theorem of_accepts (hforth : ∀ a, r = .ok a → ∃ b, r' = .ok b ∧ R a b) (hback : ∀ b, r' = .ok b → ∃ a, r = .ok a) :
    Matched R r r' := by
  cases r with
  | ok a =>
    obtain ⟨b, rfl, hab⟩ := hforth a rfl
    exact .accepted hab
  | error fault =>
    cases r' with
    | ok b =>
      obtain ⟨a, ha⟩ := hback b rfl
      cases ha
    | error fault' => exact .refused fault fault'

end Matched

/-- Two results are both refusals, or both are accepted and look the same in a view. -/
abbrev AgreeOn {ε ε' α β : Type} (view : α → β) : Except ε α → Except ε' α → Prop := Matched fun a a' => view a = view a'

/-- Results agree both ways. -/
theorem AgreeOn.symm {ε ε' α β : Type} {view : α → β} {r : Except ε α} {r' : Except ε' α} (h : AgreeOn view r r') :
    AgreeOn view r' r := by
  cases h with
  | refused fault fault' => exact .refused fault' fault
  | accepted hsame => exact .accepted hsame.symm

/-- Results that agree with one result agree with each other. -/
theorem AgreeOn.trans {ε ε' ε'' α β : Type} {view : α → β} {r : Except ε α} {r' : Except ε' α} {r'' : Except ε'' α}
    (h : AgreeOn view r r') (h' : AgreeOn view r' r'') : AgreeOn view r r'' := by
  cases h with
  | refused fault fault' =>
    cases h' with
    | refused _ fault'' => exact .refused fault fault''
  | accepted hsame =>
    cases h' with
    | accepted hsame' => exact .accepted (hsame.trans hsame')

/-- What the one accepts the other accepts too. -/
theorem AgreeOn.ok {ε ε' α β : Type} {view : α → β} {r : Except ε α} {r' : Except ε' α} {a : α} (h : AgreeOn view r r')
    (ha : r = .ok a) : ∃ a', r' = .ok a' ∧ view a = view a' := by
  cases h with
  | refused fault fault' => cases ha
  | accepted hsame =>
    obtain rfl := Except.ok.inj ha
    exact ⟨_, rfl, hsame⟩

/-! ## Contexts -/

/-- The same names are bound to the same things, and the same statements can be obeyed. -/
structure Context.Alike (ctx ctx' : Context) : Prop where
  host : ctx.host = ctx'.host
  lookup : ∀ name, ctx.lookup name = ctx'.lookup name
  inLoop : ctx.inLoop = ctx'.inLoop
  inFunction : ctx.inFunction = ctx'.inFunction

/-- Entries can be added to the names of a block: they are told apart by their names, from those that are there too, and none is named
like the alias of the host. -/
def Context.Declarable (ctx : Context) (names entries : Names) : Prop :=
  (entries.map Prod.fst).Nodup ∧ ∀ entry ∈ entries, ctx.isHost entry.1 = false ∧ names.lookup entry.1 = none

section Entering

variable {ctx ctx' inner : Context} {names after entries more : Names} {ident : Ident} {name : String} {binding : Binding}
variable {params params' : List Ident} {stmts stmts' : List Stmt}

/-- A context is like itself. -/
theorem Context.Alike.refl (ctx : Context) : ctx.Alike ctx := ⟨rfl, fun _ => rfl, rfl, rfl⟩

/-- Contexts that are alike know the same host. -/
theorem Context.Alike.isHost (h : ctx.Alike ctx') (name : String) : ctx.isHost name = ctx'.isHost name := by
  unfold Context.isHost
  rw [h.host]

/-- Contexts that are alike know the same host in expressions that are the same up to spans. -/
theorem Context.Alike.isHostVar (h : ctx.Alike ctx') (e : Expr) : ctx.isHostVar e = ctx'.isHostVar e.bare := by
  cases e with
  | var span name => exact h.isHost name
  | _ => rfl

/-- Alike contexts are alike inside a loop. -/
theorem Context.Alike.loop (h : ctx.Alike ctx') : Context.Alike { ctx with inLoop := true } { ctx' with inLoop := true } :=
  ⟨h.host, h.lookup, rfl, h.inFunction⟩

/-- Alike contexts are alike inside a function. -/
theorem Context.Alike.function (h : ctx.Alike ctx') :
    Context.Alike { ctx with inLoop := false, inFunction := true } { ctx' with inLoop := false, inFunction := true } :=
  ⟨h.host, h.lookup, rfl, rfl⟩

/-- Nothing is to be declared. -/
theorem Context.declarable_nil : ctx.Declarable names [] := ⟨List.nodup_nil, List.forall_mem_nil _⟩

/-- What it takes to declare a name in front of others. -/
theorem Context.declarable_cons : ctx.Declarable names ((name, binding) :: entries) ↔
    (ctx.isHost name = false ∧ names.lookup name = none) ∧ ctx.Declarable ((name, binding) :: names) entries := by
  have hlookup : ∀ other, List.lookup other ((name, binding) :: names) = none ↔ other ≠ name ∧ names.lookup other = none := by
    intro other
    rw [List.lookup_cons]
    cases heq : other == name with
    | true => simp [eq_of_beq heq]
    | false => simp [ne_of_beq_false heq]
  unfold Context.Declarable
  rw [List.map_cons, List.nodup_cons, List.forall_mem_cons]
  simp only [hlookup]
  constructor
  · rintro ⟨⟨hfresh, hnodup⟩, hfirst, hentries⟩
    refine ⟨hfirst, hnodup, fun entry hentry => ⟨(hentries entry hentry).1, ?_, (hentries entry hentry).2⟩⟩
    rintro rfl
    exact hfresh (List.mem_map_of_mem hentry)
  · rintro ⟨hfirst, hnodup, hentries⟩
    refine ⟨⟨fun hmem => ?_, hnodup⟩, hfirst, fun entry hentry => ⟨(hentries entry hentry).1, (hentries entry hentry).2.2⟩⟩
    obtain ⟨entry, hentry, heq⟩ := List.mem_map.mp hmem
    exact (hentries entry hentry).2.1 heq

/-- What it takes to declare names in front of others. -/
theorem Context.declarable_append :
    ctx.Declarable names (entries ++ more) ↔ ctx.Declarable names entries ∧ ctx.Declarable (entries.reverse ++ names) more := by
  induction entries generalizing names with
  | nil => exact ⟨fun h => ⟨declarable_nil, h⟩, fun h => h.2⟩
  | cons entry entries ih =>
    obtain ⟨name, binding⟩ := entry
    rw [List.cons_append, declarable_cons, declarable_cons, ih, List.reverse_cons, List.append_assoc, List.singleton_append, ← and_assoc]

/-- A declaration succeeds if and only if the name is new and not that of the host, and then the name is known. -/
theorem Context.declare_eq_ok_iff : ctx.declare names ident binding = .ok after ↔
    (ctx.isHost ident.name = false ∧ names.lookup ident.name = none) ∧ after = (ident.name, binding) :: names := by
  unfold Context.declare refuse
  cases ctx.isHost ident.name with
  | true => simp
  | false =>
    cases names.lookup ident.name with
    | some other => simp
    | none => simp [eq_comm]

/-- One declaration in front of others. -/
theorem Context.declare_bind {rest : Names → Resolved Names}
    (hrest : ∀ names, rest names = .ok after ↔ ctx.Declarable names entries ∧ after = entries.reverse ++ names) :
    (ctx.declare names ident binding >>= rest) = .ok after ↔
      ctx.Declarable names ((ident.name, binding) :: entries) ∧ after = ((ident.name, binding) :: entries).reverse ++ names := by
  rw [bind_eq_ok, declarable_cons, List.reverse_cons, List.append_assoc, List.singleton_append, and_assoc]
  simp only [declare_eq_ok_iff, hrest]
  exact ⟨fun ⟨_, ⟨hfirst, rfl⟩, h⟩ => ⟨hfirst, h⟩, fun ⟨hfirst, h⟩ => ⟨_, ⟨hfirst, rfl⟩, h⟩⟩

/-- To declare nothing succeeds, and nothing is known afterwards that was not known before. -/
theorem Context.declare_none : (.ok names : Resolved Names) = .ok after ↔ ctx.Declarable names [] ∧ after = [].reverse ++ names :=
  ⟨fun h => ⟨declarable_nil, (Except.ok.inj h).symm⟩, fun h => congrArg _ h.2.symm⟩

/-- Parameters are declared one by one. -/
theorem Context.params_eq_ok_iff : params.foldlM (fun names p => ctx.declare names p .param) names = .ok after ↔
    ctx.Declarable names (params.map fun p => (p.name, .param)) ∧
      after = (params.map fun p => (p.name, Binding.param)).reverse ++ names := by
  induction params generalizing names with
  | nil => exact declare_none
  | cons p params ih =>
    rw [List.foldlM_cons]
    exact declare_bind fun names => ih

/-- The declarations among statements are declared one by one. -/
theorem Context.hoist_eq_ok_iff : ctx.hoist names stmts = .ok after ↔
    ctx.Declarable names (declarations stmts) ∧ after = (declarations stmts).reverse ++ names := by
  induction stmts generalizing names with
  | nil => exact declare_none
  | cons s stmts ih =>
    cases s with
    | let_ span ident value =>
      unfold Context.hoist
      exact declare_bind fun names => ih
    | function span ident params body =>
      unfold Context.hoist
      exact declare_bind fun names => ih
    | _ =>
      unfold Context.hoist
      exact ih

/-- All that is declared in a block: its parameters and the declarations among its statements. -/
def entriesOf (params : List Ident) (stmts : List Stmt) : Names := params.map (fun p => (p.name, .param)) ++ declarations stmts

/-- A block is entered exactly if all that is declared in it can be. -/
theorem Context.enter_eq_ok_iff : ctx.enter params stmts = .ok inner ↔
    ctx.Declarable [] (entriesOf params stmts) ∧ inner = { ctx with blocks := (entriesOf params stmts).reverse :: ctx.blocks } := by
  unfold Context.enter entriesOf
  rw [bind_eq_ok, declarable_append, List.reverse_append]
  simp only [params_eq_ok_iff, bind_eq_ok, hoist_eq_ok_iff, List.append_nil]
  constructor
  · rintro ⟨_, ⟨hparams, rfl⟩, _, ⟨hstmts, rfl⟩, h⟩
    exact ⟨⟨hparams, hstmts⟩, (Except.ok.inj h).symm⟩
  · rintro ⟨⟨hparams, hstmts⟩, rfl⟩
    exact ⟨_, ⟨hparams, rfl⟩, _, ⟨hstmts, rfl⟩, rfl⟩

/-- Entries that are bound the same way are looked up the same way, whatever their order. -/
theorem Names.Of.lookup_eq {names' entries' : Names} (h : names.Of entries) (h' : names'.Of entries') (hperm : entries.Perm entries')
    (name : String) : names.lookup name = names'.lookup name :=
  Option.ext fun binding => ⟨fun hb => h'.bound name binding (hperm.mem_iff.mp (h.only name binding hb)),
    fun hb => h.bound name binding (hperm.mem_iff.mpr (h'.only name binding hb))⟩

/-- What is declared in a block is bound in it. -/
theorem Context.Declarable.of (h : ctx.Declarable [] (entriesOf params stmts)) :
    Names.Of (entriesOf params stmts).reverse (entriesOf params stmts) := by
  obtain ⟨hparams, hstmts⟩ := declarable_append.mp h
  have hfirst := params_eq_ok_iff.mpr ⟨hparams, rfl⟩
  have hsecond := hoist_eq_ok_iff.mpr ⟨hstmts, rfl⟩
  have hof := of_hoist hsecond (of_params hfirst ⟨fun _ _ h => absurd h List.not_mem_nil, fun _ _ h => by cases h⟩)
  rwa [List.append_nil, ← List.reverse_append, List.nil_append] at hof

/-- Whether names can be declared does not depend on their order. -/
theorem Context.Declarable.perm {entries' : Names} (h : ctx.Declarable names entries) (hhost : ctx.host = ctx'.host)
    (hperm : entries.Perm entries') : ctx'.Declarable names entries' := by
  refine ⟨((hperm.map Prod.fst).nodup_iff).mp h.1, fun entry hentry => ?_⟩
  have hold := h.2 entry (hperm.mem_iff.mpr hentry)
  unfold Context.isHost at hold ⊢
  rwa [← hhost]

/-- Blocks that declare the same are entered alike, in whatever order they declare it. -/
theorem enter_alike (h : ctx.Alike ctx') (hperm : (entriesOf params stmts).Perm (entriesOf params' stmts')) :
    Matched Context.Alike (ctx.enter params stmts) (ctx'.enter params' stmts') := by
  refine .of_accepts (fun inner hinner => ?_) fun inner' hinner' => ?_
  · obtain ⟨hdeclarable, rfl⟩ := Context.enter_eq_ok_iff.mp hinner
    have hdeclarable' := hdeclarable.perm h.host hperm
    refine ⟨_, Context.enter_eq_ok_iff.mpr ⟨hdeclarable', rfl⟩, h.host, fun name => ?_, h.inLoop, h.inFunction⟩
    have houter := h.lookup name
    unfold Context.lookup at houter ⊢
    rw [List.findSome?_cons, List.findSome?_cons, hdeclarable.of.lookup_eq hdeclarable'.of hperm name, houter]
  · obtain ⟨hdeclarable', -⟩ := Context.enter_eq_ok_iff.mp hinner'
    exact ⟨_, Context.enter_eq_ok_iff.mpr ⟨hdeclarable'.perm h.host.symm hperm.symm, rfl⟩⟩

end Entering

end HostScript.Program
