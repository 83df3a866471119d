import Mathlib
import HostScript.Proofs.Machine.Settled

/-!
# What all slots of a chain have

A property that all slots of the scopes of a chain have is kept by the ways in which a run changes the chain, if the slots that are put
into it have it; and what a name is looked up to has it.
-/

namespace HostScript.Machine

open Program (Block Function)

variable {P : Slot → Prop}

/-- All slots of a scope have a property. -/
def Scope.All (P : Slot → Prop) (scope : Scope) : Prop := ∀ entry ∈ scope, P entry.2

theorem Scope.All.nil : Scope.All P [] := List.forall_mem_nil _

theorem Scope.All.set {scope : Scope} {slot : Slot} (h : Scope.All P scope) (hslot : P slot) (name : String) :
    Scope.All P (Scope.set name slot scope) := by
  induction scope with
  | nil => exact List.forall_mem_singleton.mpr hslot
  | cons first rest ih =>
    obtain ⟨hfirst, hrest⟩ := List.forall_mem_cons.mp h
    rw [Scope.set]
    split
    · exact List.forall_mem_cons.mpr ⟨hslot, hrest⟩
    · exact List.forall_mem_cons.mpr ⟨hfirst, ih hrest⟩

/-- A scope keeps the property when names are put into it whose slots have it. -/
theorem Scope.All.foldl {α : Type} {as : List α} {scope : Scope} (h : Scope.All P scope) (name : α → String) (slot : α → Slot)
    (hslot : ∀ a ∈ as, P (slot a)) : Scope.All P (as.foldl (fun scope a => Scope.set (name a) (slot a) scope) scope) := by
  induction as generalizing scope with
  | nil => exact h
  | cons a as ih =>
    obtain ⟨ha, has⟩ := List.forall_mem_cons.mp hslot
    exact ih (h.set ha (name a)) has

theorem Scope.All.bindBlock {scope : Scope} (h : Scope.All P scope) (huninitialized : P .uninitialized) {block : Block}
    (hblock : ∀ f ∈ block.functions, P (.function f)) : Scope.All P (bindBlock block scope) := by
  obtain ⟨locals, functions, stmts⟩ := block
  exact (h.foldl id (fun _ => .uninitialized) fun _ _ => huninitialized).foldl Function.name .function hblock

/-- The frame of a call holds the arguments and the functions of the body. -/
theorem Scope.All.callFrame {f : Function} {args : List Value} (huninitialized : P .uninitialized)
    (hargs : ∀ v ∈ args, P (.value v)) (hf : ∀ g ∈ f.body.functions, P (.function g)) : Scope.All P (callFrame f args) := by
  refine (Scope.All.nil.foldl Prod.fst (fun pair : String × Value => .value pair.2) fun pair hpair => ?_).bindBlock huninitialized hf
  exact hargs _ (List.of_mem_zip hpair).2

/-- All slots of a chain have a property. -/
def AllSlots (P : Slot → Prop) (scopes : List Scope) : Prop := ∀ scope ∈ scopes, Scope.All P scope

theorem AllSlots.found {scopes : List Scope} (h : AllSlots P scopes) {name : String} {slot : Slot}
    (hslot : findSlot? name scopes = some slot) : P slot := by
  induction scopes with
  | nil => contradiction
  | cons scope rest ih =>
    obtain ⟨hscope, hrest⟩ := List.forall_mem_cons.mp h
    rw [findSlot?] at hslot
    cases hlookup : scope.lookup name with
    | none =>
      rw [hlookup] at hslot
      exact ih hrest hslot
    | some found =>
      rw [hlookup] at hslot
      obtain rfl := Option.some.inj hslot
      obtain ⟨front, behind, rfl, -⟩ := List.lookup_eq_some_iff.mp hlookup
      exact hscope (name, found) (by simp)

theorem AllSlots.replaced {scopes : List Scope} (h : AllSlots P scopes) {slot : Slot} (hslot : P slot) (name : String) :
    AllSlots P (replaceSlot name slot scopes) := by
  induction scopes with
  | nil => exact h
  | cons scope rest ih =>
    obtain ⟨hscope, hrest⟩ := List.forall_mem_cons.mp h
    rw [replaceSlot]
    split
    · exact List.forall_mem_cons.mpr ⟨hscope.set hslot name, hrest⟩
    · exact List.forall_mem_cons.mpr ⟨hscope, ih hrest⟩

theorem AllSlots.bound {scopes : List Scope} (h : AllSlots P scopes) {slot : Slot} (hslot : P slot) (name : String) :
    AllSlots P (boundScopes name slot scopes) := by
  cases scopes with
  | nil => exact List.forall_mem_singleton.mpr (List.forall_mem_singleton.mpr hslot)
  | cons scope rest =>
    obtain ⟨hscope, hrest⟩ := List.forall_mem_cons.mp h
    exact List.forall_mem_cons.mpr ⟨hscope.set hslot name, hrest⟩

/-- Behind a block the chain is what it was around it. -/
theorem AllSlots.tail {scopes : List Scope} (h : AllSlots P scopes) : AllSlots P scopes.tail :=
  fun scope hscope => h scope (List.mem_of_mem_tail hscope)

/-- A call sees a part of the chain. -/
theorem AllSlots.drop {scopes : List Scope} (h : AllSlots P scopes) (n : Nat) : AllSlots P (scopes.drop n) :=
  fun scope hscope => h scope (List.mem_of_mem_drop hscope)

/-- Behind a call the part that was hidden is back. -/
theorem AllSlots.restored {scopes after : List Scope} (h : AllSlots P scopes) (hafter : AllSlots P after) (n : Nat) :
    AllSlots P (scopes.take n ++ after.tail) := by
  intro scope hscope
  rcases List.mem_append.mp hscope with hscope | hscope
  · exact h scope (List.mem_of_mem_take hscope)
  · exact hafter.tail scope hscope

end HostScript.Machine
