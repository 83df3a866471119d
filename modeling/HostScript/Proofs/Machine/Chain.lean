import Mathlib
import HostScript.Machine.Eval
import HostScript.Proofs.Program.Scoped

/-!
# Scopes as instances of blocks

At run time the scopes form a chain that mirrors the layers around the part of the script that is being run: `Chain m layers
scopes` says that each scope is an instance of the layer at its place. A name that the resolver has found in a layer is then found
in the scope at the same place, with a slot of its kind (`Chain.lands`). Binding, assigning, calling and returning keep the mirror.
-/

namespace HostScript.Machine

open Program
open Script (Ident Stmt Module)

/-- A slot of a name is of the kind of its binding. The function of a slot is the one of that name that is declared directly inside
the given layers. -/
inductive SlotOf (m : Module) (layers : List Layer) : String → Binding → Slot → Prop
  | uninitialized (name : String) : SlotOf m layers name .variable .uninitialized
  | variable_ (name : String) (v : Value) : SlotOf m layers name .variable (.value v)
  | param (name : String) (v : Value) : SlotOf m layers name .param (.value v)
  | function {home : Site} {f : Function} (hhome : home.layers = layers) (h : FunctionScoped m home f) :
    SlotOf m layers f.name (.function f.params.length) (.function f)

/-- A scope is an instance of a layer: it has a slot of the right kind for each name declared in the layer, and no others. -/
structure Instance (m : Module) (layer : Layer) (outer : List Layer) (scope : Scope) : Prop where
  bound : ∀ name binding, layer.names.lookup name = some binding →
    ∃ slot, scope.lookup name = some slot ∧ SlotOf m (layer :: outer) name binding slot
  only : ∀ name, layer.names.lookup name = none → scope.lookup name = none

/-- The scopes are instances of the layers, one for each, in the same order. -/
def Chain (m : Module) : List Layer → List Scope → Prop
  | [], [] => True
  | layer :: layers, scope :: scopes => Instance m layer layers scope ∧ Chain m layers scopes
  | _, _ => False

/-- The innermost of some layers in which a name is declared, the layers inside and outside it, and the binding. -/
structure Selects (layers : List Layer) (name : String) (binding : Binding) (inner : List Layer) (layer : Layer)
    (outer : List Layer) : Prop where
  split : layers = inner ++ layer :: outer
  inside : ∀ l ∈ inner, l.names.lookup name = none
  declared : layer.names.lookup name = some binding

/-- Where the walk along a chain for a name stops: in the instance of the innermost layer that declares the name, at a slot of the
kind of its binding. The scopes passed before are instances of the layers inside, those left are instances of the layers outside. -/
structure Lands (m : Module) (layers : List Layer) (scopes : List Scope) (name : String) (binding : Binding)
    (inner : List Layer) (layer : Layer) (outer : List Layer) (hidden : List Scope) (scope : Scope) (rest : List Scope)
    (slot : Slot) : Prop where
  selects : Selects layers name binding inner layer outer
  split : scopes = hidden ++ scope :: rest
  passed : ∀ s ∈ hidden, s.lookup name = none
  depth : scopeDepth name scopes = hidden.length
  found : findSlot? name scopes = some slot
  here : scope.lookup name = some slot
  kind : SlotOf m (layer :: outer) name binding slot
  isInstance : Instance m layer outer scope
  length : hidden.length = inner.length
  rest : Chain m outer rest

/-! ## Scopes -/

namespace ChainAux

theorem lookup_set (name : String) (slot : Slot) (scope : Scope) (n : String) :
    (Scope.set name slot scope).lookup n = if n = name then some slot else scope.lookup n := by
  induction scope with
  | nil =>
    unfold Scope.set
    rw [List.lookup_cons]
    by_cases h : n = name
    · rw [if_pos h, beq_iff_eq.mpr h]
    · rw [if_neg h, beq_false_of_ne h]
  | cons entry rest ih =>
    obtain ⟨here, old⟩ := entry
    unfold Scope.set
    by_cases hhere : here = name
    · rw [if_pos (beq_iff_eq.mpr hhere), List.lookup_cons, List.lookup_cons, hhere]
      by_cases h : n = name
      · rw [if_pos h, beq_iff_eq.mpr h]
      · rw [if_neg h, beq_false_of_ne h]
    · rw [if_neg (by simpa using hhere), List.lookup_cons, List.lookup_cons, ih]
      by_cases h : n = here
      · have hne : n ≠ name := fun heq => hhere (h.symm.trans heq)
        simp only [beq_iff_eq.mpr h, if_neg hne]
      · rw [beq_false_of_ne h]

theorem lookup_locals (locals : List String) (base : Scope) (n : String) :
    (locals.foldl (fun scope name => Scope.set name .uninitialized scope) base).lookup n
      = if n ∈ locals then some .uninitialized else base.lookup n := by
  induction locals generalizing base with
  | nil => simp
  | cons name locals ih =>
    rw [List.foldl_cons, ih, lookup_set]
    by_cases h : n ∈ locals
    · rw [if_pos h, if_pos (List.mem_cons_of_mem _ h)]
    · by_cases heq : n = name
      · rw [if_neg h, if_pos heq, if_pos (by simp [heq])]
      · rw [if_neg h, if_neg heq, if_neg (by simp [heq, h])]

theorem lookup_functions (functions : List Function) (base : Scope) (n : String) :
    (∃ f ∈ functions, f.name = n ∧
        (functions.foldl (fun scope f => Scope.set f.name (.function f) scope) base).lookup n = some (.function f)) ∨
      (∀ f ∈ functions, f.name ≠ n) ∧
        (functions.foldl (fun scope f => Scope.set f.name (.function f) scope) base).lookup n = base.lookup n := by
  induction functions generalizing base with
  | nil => exact Or.inr ⟨nofun, rfl⟩
  | cons f functions ih =>
    rw [List.foldl_cons]
    rcases ih (Scope.set f.name (.function f) base) with ⟨g, hg, hname, hlookup⟩ | ⟨hnone, hlookup⟩
    · exact Or.inl ⟨g, List.mem_cons_of_mem _ hg, hname, hlookup⟩
    · rw [lookup_set] at hlookup
      by_cases h : n = f.name
      · rw [if_pos h] at hlookup
        exact Or.inl ⟨f, List.mem_cons_self, h.symm, hlookup⟩
      · rw [if_neg h] at hlookup
        refine Or.inr ⟨fun g hg => ?_, hlookup⟩
        rcases List.mem_cons.mp hg with rfl | hg
        · exact Ne.symm h
        · exact hnone g hg

theorem lookup_params (params : List String) (args : List Value) (base : Scope) (hlength : args.length = params.length)
    (n : String) :
    (n ∈ params ∧ ∃ v,
        ((params.zip args).foldl (fun scope (name, v) => Scope.set name (.value v) scope) base).lookup n = some (.value v)) ∨
      (n ∉ params ∧
        ((params.zip args).foldl (fun scope (name, v) => Scope.set name (.value v) scope) base).lookup n = base.lookup n) := by
  induction params generalizing args base with
  | nil => exact Or.inr ⟨nofun, rfl⟩
  | cons name params ih =>
    cases args with
    | nil => nomatch hlength
    | cons v args =>
      rw [List.zip_cons_cons, List.foldl_cons]
      rcases ih args (Scope.set name (.value v) base) (Nat.succ.inj hlength) with ⟨hmem, w, hlookup⟩ | ⟨hnone, hlookup⟩
      · exact Or.inl ⟨List.mem_cons_of_mem _ hmem, w, hlookup⟩
      · rw [lookup_set] at hlookup
        by_cases h : n = name
        · rw [if_pos h] at hlookup
          exact Or.inl ⟨h ▸ List.mem_cons_self, v, hlookup⟩
        · rw [if_neg h] at hlookup
          exact Or.inr ⟨by simp [h, hnone], hlookup⟩

/-- What a name stands for in a block as it is entered: a function, else a local, else what it stood for before. -/
theorem lookup_bindBlock (block : Block) (base : Scope) (n : String) :
    (∃ f ∈ block.functions, f.name = n ∧ (bindBlock block base).lookup n = some (.function f)) ∨
      (∀ f ∈ block.functions, f.name ≠ n) ∧
        ((n ∈ block.locals ∧ (bindBlock block base).lookup n = some .uninitialized) ∨
          (n ∉ block.locals ∧ (bindBlock block base).lookup n = base.lookup n)) := by
  unfold bindBlock
  refine (lookup_functions block.functions _ n).imp_right fun ⟨hnone, hlookup⟩ => ⟨hnone, ?_⟩
  rw [lookup_locals] at hlookup
  by_cases h : n ∈ block.locals
  · rw [if_pos h] at hlookup
    exact Or.inl ⟨h, hlookup⟩
  · rw [if_neg h] at hlookup
    exact Or.inr ⟨h, hlookup⟩

theorem not_param_declared (stmts : List Stmt) (n : String) : (n, Binding.param) ∉ declarations stmts := by
  intro h
  obtain ⟨s, _, hs⟩ := List.mem_filterMap.mp h
  cases s <;> simp at hs

variable {m : Module} {site : Site}

/-- The scope of a block as it is entered is an instance of its layer, if the parameters are bound to values before. -/
theorem instance_bindBlock {params : List Ident} {stmts : List Stmt} {names : Names} {body : Block} {base : Scope}
    (h : BodyScoped m site params stmts names body)
    (hbase : ∀ n, (n ∈ params.map (·.name) ∧ ∃ v, base.lookup n = some (.value v)) ∨
      (n ∉ params.map (·.name) ∧ base.lookup n = none)) :
    Instance m (.block params stmts names) site.layers (bindBlock body base) := by
  cases h with
  | mk hd hm hf hs =>
    rename_i locals functions body
    have hnames := hd.names_of
    have hfunction : ∀ f ∈ functions, names.lookup f.name = some (.function f.params.length) := fun f hmem =>
      hnames.bound _ _ (List.mem_append_right _ ((hm.functions _ _).mpr ⟨f, hmem, rfl, rfl⟩))
    have hlocal : ∀ n ∈ locals, names.lookup n = some .variable := fun n hmem =>
      hnames.bound _ _ (List.mem_append_right _ ((hm.locals n).mp hmem))
    have hparam : ∀ n ∈ params.map (·.name), names.lookup n = some .param := by
      intro n hmem
      obtain ⟨p, hp, rfl⟩ := List.mem_map.mp hmem
      exact hnames.bound _ _ (List.mem_append_left _ (List.mem_map.mpr ⟨p, hp, rfl⟩))
    -- Under a name the scope holds the function of that name, or else the local, or else what the frame holds.
    constructor
    · intro n b hb
      replace hb : names.lookup n = some b := hb
      rcases lookup_bindBlock (.mk locals functions body) base n with
        ⟨f, hmem, rfl, hlookup⟩ | ⟨hnone, ⟨hmem, hlookup⟩ | ⟨hnot, hlookup⟩⟩
      · obtain rfl := Option.some.inj ((hfunction f hmem).symm.trans hb)
        exact ⟨_, hlookup, .function rfl (hf f hmem)⟩
      · obtain rfl := Option.some.inj ((hlocal n hmem).symm.trans hb)
        exact ⟨_, hlookup, .uninitialized n⟩
      · -- neither a function nor a local, so a parameter
        rcases hbase n with ⟨hmem, v, hv⟩ | ⟨hnotParam, _⟩
        · obtain rfl := Option.some.inj ((hparam n hmem).symm.trans hb)
          exact ⟨_, hlookup.trans hv, .param n v⟩
        · exfalso
          rcases List.mem_append.mp (hnames.only n b hb) with hparams | hdecl
          · obtain ⟨p, hp, heq⟩ := List.mem_map.mp hparams
            exact hnotParam (List.mem_map.mpr ⟨p, hp, (Prod.mk.inj heq).1⟩)
          · rcases b with _ | _ | arity
            · exact hnot ((hm.locals n).mpr hdecl)
            · exact not_param_declared stmts n hdecl
            · obtain ⟨f, hmem, hname, _⟩ := (hm.functions n arity).mp hdecl
              exact hnone f hmem hname
    · intro n hb
      replace hb : names.lookup n = none := hb
      rcases lookup_bindBlock (.mk locals functions body) base n with
        ⟨f, hmem, rfl, hlookup⟩ | ⟨hnone, ⟨hmem, hlookup⟩ | ⟨hnot, hlookup⟩⟩
      · nomatch (hfunction f hmem).symm.trans hb
      · nomatch (hlocal n hmem).symm.trans hb
      · rcases hbase n with ⟨hmem, _⟩ | ⟨_, hn⟩
        · nomatch (hparam n hmem).symm.trans hb
        · exact hlookup.trans hn

/-- The scope of a block as it is entered. -/
theorem instance_block {stmts : List Stmt} {names : Names} {body : Block} (h : BodyScoped m site [] stmts names body) :
    Instance m (.block [] stmts names) site.layers (bindBlock body []) :=
  instance_bindBlock h fun _ => Or.inr ⟨nofun, rfl⟩

/-- The frame of a call, when as many arguments are passed as there are parameters. -/
theorem instance_callFrame {f : Function} {args : List Value} (h : FunctionScoped m site f)
    (hlength : args.length = f.params.length) :
    ∃ params stmts names, BodyScoped m site.function params stmts names f.body ∧
      Instance m (.block params stmts names) site.layers (callFrame f args) := by
  cases h with
  | mk ho hr hb =>
    have hframe := instance_bindBlock hb fun n => lookup_params _ args [] hlength n
    exact ⟨_, _, _, hb, hframe⟩

/-- The scope of the `if` after an `else`. -/
theorem instance_elseIf (outer : List Layer) (stmts : List Statement) :
    Instance m .elseIf outer (bindBlock (.mk [] [] stmts) []) := ⟨nofun, fun _ _ => rfl⟩

end ChainAux

/-! ## Chains -/

section Chains

open ChainAux

variable {m : Module} {layers : List Layer} {scopes : List Scope} {name : String} {binding : Binding}

/-- Looking a name up among the blocks of some layers. -/
theorem lookup_blocks (site : Site) (name : String) :
    (site.context m).lookup name = site.layers.findSome? (·.names.lookup name) := by
  obtain ⟨layers, inLoop, inFunction⟩ := site
  unfold Context.lookup Site.context
  dsimp only
  induction layers with
  | nil => rfl
  | cons layer layers ih =>
    cases layer with
    | block params stmts names =>
      unfold Layer.blocks
      rw [List.findSome?_cons, List.findSome?_cons, ih]
      rfl
    | elseIf =>
      unfold Layer.blocks
      rw [List.findSome?_cons, ih]
      rfl

/-- A name that is found is found in the innermost of the layers that declare it. -/
theorem selects_of_lookup (hl : layers.findSome? (·.names.lookup name) = some binding) :
    ∃ inner layer outer, Selects layers name binding inner layer outer := by
  induction layers with
  | nil => nomatch hl
  | cons layer layers ih =>
    rw [List.findSome?_cons] at hl
    cases hhere : layer.names.lookup name with
    | some b =>
      rw [hhere] at hl
      obtain rfl := Option.some.inj hl
      exact ⟨[], layer, layers, rfl, nofun, hhere⟩
    | none =>
      rw [hhere] at hl
      obtain ⟨inner, target, outer, hsplit, hinside, hdeclared⟩ := ih hl
      refine ⟨layer :: inner, target, outer, by rw [hsplit]; rfl, ?_, hdeclared⟩
      rintro l (_ | ⟨_, hmem⟩)
      · exact hhere
      · exact hinside l hmem

/-- The walk along a chain for a name that some layer declares. -/
theorem Chain.lands {inner outer : List Layer} {layer : Layer} (h : Chain m layers scopes)
    (hs : Selects layers name binding inner layer outer) :
    ∃ hidden scope rest slot, Lands m layers scopes name binding inner layer outer hidden scope rest slot := by
  induction inner generalizing layers scopes with
  | nil =>
    obtain ⟨rfl, _, hdeclared⟩ := hs
    cases scopes with
    | nil => nomatch h
    | cons scope scopes =>
      obtain ⟨hinstance, hrest⟩ := h
      obtain ⟨slot, hslot, hkind⟩ := hinstance.bound name binding hdeclared
      exact ⟨[], scope, scopes, slot, ⟨rfl, nofun, hdeclared⟩, rfl, nofun, by simp [scopeDepth, hslot],
        by simp [findSlot?, hslot], hslot, hkind, hinstance, rfl, hrest⟩
  | cons first inner ih =>
    obtain ⟨rfl, hinside, hdeclared⟩ := hs
    cases scopes with
    | nil => nomatch h
    | cons scope scopes =>
      obtain ⟨hinstance, hrest⟩ := h
      have hnone := hinstance.only name (hinside first List.mem_cons_self)
      obtain ⟨hidden, there, rest, slot, hlands⟩ :=
        ih hrest ⟨rfl, fun l hl => hinside l (List.mem_cons_of_mem _ hl), hdeclared⟩
      refine ⟨scope :: hidden, there, rest, slot, ⟨rfl, hinside, hdeclared⟩, by rw [hlands.split]; rfl, ?_, ?_, ?_,
        hlands.here, hlands.kind, hlands.isInstance, by simp [hlands.length], hlands.rest⟩
      · rintro s (_ | ⟨_, hmem⟩)
        · exact hnone
        · exact hlands.passed s hmem
      · simp [scopeDepth, hnone, hlands.depth]
      · simp [findSlot?, hnone, hlands.found]

/-- A layer binds a name when it is executed in its own scope: the scope stays an instance. -/
theorem Instance.set {layer : Layer} {outer : List Layer} {scope : Scope} {slot : Slot} (h : Instance m layer outer scope)
    (hname : layer.names.lookup name = some binding) (hkind : SlotOf m (layer :: outer) name binding slot) :
    Instance m layer outer (Scope.set name slot scope) := by
  constructor
  · intro n b hb
    rw [lookup_set]
    by_cases hn : n = name
    · subst hn
      obtain rfl := Option.some.inj (hname.symm.trans hb)
      exact ⟨slot, if_pos rfl, hkind⟩
    · rw [if_neg hn]
      exact h.bound n b hb
  · intro n hnone
    rw [lookup_set, if_neg (by rintro rfl; nomatch hname.symm.trans hnone)]
    exact h.only n hnone

/-- A `let` in the innermost layer keeps the chain. -/
theorem Chain.bind {layer : Layer} {v : Value} (h : Chain m (layer :: layers) scopes)
    (hname : layer.names.lookup name = some .variable) :
    ∃ scope rest, scopes = scope :: rest ∧ Chain m (layer :: layers) (Scope.set name (.value v) scope :: rest) := by
  cases scopes with
  | nil => nomatch h
  | cons scope rest => exact ⟨scope, rest, rfl, h.1.set hname (.variable_ name v), h.2⟩

/-- An assignment to a variable that has a value keeps the chain. -/
theorem Chain.replace {current v : Value} (h : Chain m layers scopes) (hfound : findSlot? name scopes = some (.value current)) :
    Chain m layers (replaceSlot name (.value v) scopes) := by
  induction layers generalizing scopes with
  | nil =>
    cases scopes with
    | nil => trivial
    | cons scope rest => nomatch h
  | cons layer layers ih =>
    cases scopes with
    | nil => nomatch h
    | cons scope rest =>
      obtain ⟨hinstance, hrest⟩ := h
      unfold findSlot? at hfound
      unfold replaceSlot
      cases hslot : scope.lookup name with
      | none =>
        rw [hslot] at hfound
        exact ⟨hinstance, ih hrest hfound⟩
      | some slot =>
        rw [hslot] at hfound
        obtain rfl := Option.some.inj hfound
        refine ⟨?_, hrest⟩
        cases hname : layer.names.lookup name with
        | none => nomatch (hinstance.only name hname).symm.trans hslot
        | some b =>
          obtain ⟨slot, hslot', hkind⟩ := hinstance.bound name b hname
          obtain rfl := Option.some.inj (hslot'.symm.trans hslot)
          refine hinstance.set hname ?_
          cases hkind with
          | variable_ => exact .variable_ name v
          | param => exact .param name v

/-- Two chains one inside the other make one, if the inner one mirrors the inner layers. -/
theorem Chain.split {inner outer : List Layer} (h : Chain m (inner ++ outer) scopes) :
    Chain m outer (scopes.drop inner.length) ∧
      ∀ rest, Chain m outer rest → Chain m (inner ++ outer) (scopes.take inner.length ++ rest) := by
  induction inner generalizing scopes with
  | nil => exact ⟨h, fun rest hrest => hrest⟩
  | cons layer inner ih =>
    cases scopes with
    | nil => nomatch h
    | cons scope scopes =>
      obtain ⟨hinstance, hrest⟩ := h
      obtain ⟨hdrop, htake⟩ := ih hrest
      exact ⟨hdrop, fun rest hr => ⟨hinstance, htake rest hr⟩⟩

end Chains

end HostScript.Machine
