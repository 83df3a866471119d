import Mathlib
import HostScript.Machine.Linked
import HostScript.Proofs.Machine.Chain

/-!
# Scopes with links and scopes in a chain

`Chained heap as scopes` says that the scopes at some addresses are linked to one another and are the given scopes of a chain, as long
as nobody looks at the links of functions, which all lead to the scope they are found in. A name is then looked up alike in both.
`Kept` is what a part of a run leaves untouched: every scope stays inside the one it was in and is held as often as before, and only the
scopes that the part can see have changed.
-/

namespace HostScript.Machine.Linked

open Program (Block Function)

/-! ## Names -/

/-- A slot without its link. -/
def Slot.erase : Slot → Machine.Slot
  | .uninitialized => .uninitialized
  | .value v => .value v
  | .function f _ => .function f

/-- The link of a slot, if it has one, leads to a scope. -/
def Slot.LinksTo (home : Address) : Slot → Prop
  | .function _ a => a = home
  | _ => True

/-- Names without their links. -/
def Names.erase (names : Names) : Scope := names.map fun (name, slot) => (name, slot.erase)

/-- The links of all names lead to a scope. -/
def Names.LinkTo (home : Address) (names : Names) : Prop := ∀ entry ∈ names, entry.2.LinksTo home

/-- Forgetting the links, a name is found with its slot. -/
theorem lookup_erase (names : Names) (name : String) : names.erase.lookup name = (names.lookup name).map Slot.erase := by
  induction names with
  | nil => rfl
  | cons entry rest ih =>
    obtain ⟨here, slot⟩ := entry
    change ((here, slot.erase) :: Names.erase rest).lookup name = _
    rw [List.lookup_cons, List.lookup_cons]
    cases name == here with
    | true => rfl
    | false => exact ih

/-- The links may be forgotten before a name is bound or afterwards. -/
theorem erase_set (name : String) (slot : Slot) (names : Names) :
    (names.set name slot).erase = Scope.set name slot.erase names.erase := by
  induction names with
  | nil => rfl
  | cons entry rest ih =>
    obtain ⟨here, old⟩ := entry
    change Names.erase (Names.set name slot ((here, old) :: rest)) = Scope.set name slot.erase ((here, old.erase) :: Names.erase rest)
    rw [Names.set, Scope.set]
    split
    · rfl
    · exact congrArg ((here, old.erase) :: ·) ih

/-- Among names that have a name, putting a slot in its place gives no new one. -/
theorem isSome_lookup_set {names : Names} {name : String} (h : (names.lookup name).isSome) (slot : Slot) (n : String) :
    ((names.set name slot).lookup n).isSome = (names.lookup n).isSome := by
  have herase (names : Names) (n : String) : (names.erase.lookup n).isSome = (names.lookup n).isSome := by
    rw [lookup_erase, Option.isSome_map]
  rw [← herase, erase_set, ChainAux.lookup_set]
  split
  · rename_i hn
    rw [hn, h]
    rfl
  · exact herase names n

/-- The links may be forgotten before names are bound one after the other or afterwards. -/
theorem erase_foldl {α : Type} (as : List α) (name : α → String) (slot : α → Slot) (names : Names) :
    (as.foldl (fun names a => Names.set (name a) (slot a) names) names).erase =
      as.foldl (fun scope a => Scope.set (name a) (slot a).erase scope) names.erase := by
  induction as generalizing names with
  | nil => rfl
  | cons a as ih => rw [List.foldl_cons, List.foldl_cons, ih, erase_set]

/-- The names of a block are those that the chain has for it. -/
theorem erase_bindBlock (home : Address) (block : Block) (names : Names) :
    (bindBlock home block names).erase = Machine.bindBlock block names.erase := by
  unfold bindBlock Machine.bindBlock
  rw [erase_foldl, erase_foldl]
  rfl

/-- The names of a call without their links are the scope of the call. -/
theorem erase_callFrame (home : Address) (f : Function) (args : List Value) :
    (callFrame home f args).erase = Machine.callFrame f args := by
  unfold callFrame Machine.callFrame
  rw [erase_bindBlock, erase_foldl]
  rfl

namespace Names.LinkTo

variable {home : Address} {names : Names}

/-- A name whose slot links to a home keeps the others linking to it. -/
theorem set (h : names.LinkTo home) (name : String) (slot : Slot) (hslot : slot.LinksTo home) : (names.set name slot).LinkTo home := by
  induction names with
  | nil => exact List.forall_mem_singleton.mpr hslot
  | cons first rest ih =>
    obtain ⟨hfirst, hrest⟩ := List.forall_mem_cons.mp h
    rw [Names.set]
    split
    · exact List.forall_mem_cons.mpr ⟨hslot, hrest⟩
    · exact List.forall_mem_cons.mpr ⟨hfirst, ih hrest⟩

/-- Names bound one after the other link to a home if their slots do. -/
theorem foldl {α : Type} (h : names.LinkTo home) (as : List α) (name : α → String) (slot : α → Slot)
    (hslot : ∀ a, (slot a).LinksTo home) : Names.LinkTo home (as.foldl (fun names a => Names.set (name a) (slot a) names) names) := by
  induction as generalizing names with
  | nil => exact h
  | cons a as ih => exact ih (h.set (name a) (slot a) (hslot a))

/-- The functions of a block link to the scope of the block. -/
theorem bindBlock (h : names.LinkTo home) (block : Block) : (bindBlock home block names).LinkTo home :=
  (h.foldl block.locals id (fun _ => .uninitialized) fun _ => trivial).foldl block.functions Function.name (.function · home) fun _ => rfl

/-- The names of a call link to its scope. -/
theorem callFrame (home : Address) (f : Function) (args : List Value) : (callFrame home f args).LinkTo home :=
  have hparams := foldl (List.forall_mem_nil _) (f.params.zip args) Prod.fst (.value ·.2) fun _ => trivial
  hparams.bindBlock f.body

/-- A function that is found has its link to the scope it is found in. -/
theorem lookup (h : names.LinkTo home) {name : String} {slot : Slot} (hslot : names.lookup name = some slot) : slot.LinksTo home := by
  obtain ⟨front, behind, rfl, -⟩ := List.lookup_eq_some_iff.mp hslot
  exact h (name, slot) (by simp)

end Names.LinkTo

/-! ## Cells -/

namespace Heap

variable {heap : Heap} {a b : Address} {cell : Cell} {f : Cell → Cell}

/-- The cell that has come last has the greatest address. -/
theorem cellAt_cons (cell : Cell) (older : Heap) (a : Address) :
    Heap.cellAt (cell :: older) a = if a = older.length then some cell else older.cellAt a := rfl

/-- An address with a cell is one of the heap. -/
theorem cellAt_lt (h : heap.cellAt a = some cell) : a < heap.length := by
  induction heap with
  | nil => nomatch h
  | cons first older ih =>
    rw [cellAt_cons] at h
    rw [List.length_cons]
    split at h
    · rename_i ha
      exact Nat.lt_succ_of_le (Nat.le_of_eq ha)
    · exact Nat.lt_succ_of_lt (ih h)

/-- Every address of the heap has a cell. -/
theorem exists_cellAt (h : a < heap.length) : ∃ cell, heap.cellAt a = some cell := by
  induction heap with
  | nil => nomatch h
  | cons first older ih =>
    rw [cellAt_cons]
    split
    · exact ⟨first, rfl⟩
    · rename_i ha
      exact ih (Nat.lt_of_le_of_ne (Nat.le_of_lt_succ h) ha)

/-- A new scope leaves the others where they are. -/
theorem cellAt_cons_of_lt (cell : Cell) (h : a < heap.length) : Heap.cellAt (cell :: heap) a = heap.cellAt a := by
  rw [cellAt_cons, if_neg (Nat.ne_of_lt h)]

/-- Changing a cell adds none. -/
theorem length_change (f : Cell → Cell) (heap : Heap) (a : Address) : (heap.change f a).length = heap.length := by
  induction heap with
  | nil => rfl
  | cons first older ih =>
    rw [change]
    split
    · rfl
    · rw [List.length_cons, ih, List.length_cons]

/-- Holding a scope adds no cell. -/
theorem length_retain (heap : Heap) (place : Option Address) : (heap.retain place).length = heap.length := by
  cases place with
  | none => rfl
  | some a => exact length_change _ heap a

/-- Changing a cell leaves the others as they are. -/
theorem cellAt_change (f : Cell → Cell) (heap : Heap) (a b : Address) :
    (heap.change f a).cellAt b = if b = a then (heap.cellAt b).map f else heap.cellAt b := by
  induction heap with
  | nil => rw [change]; split <;> rfl
  | cons first older ih =>
    rw [change]
    by_cases ha : a = older.length
    · rw [if_pos ha, cellAt_cons, cellAt_cons]
      by_cases hb : b = older.length
      · rw [if_pos hb, if_pos hb, if_pos (hb.trans ha.symm)]
        rfl
      · rw [if_neg hb, if_neg hb, if_neg fun h => hb (h.trans ha)]
    · rw [if_neg ha, cellAt_cons, cellAt_cons, length_change, ih]
      by_cases hb : b = older.length
      · rw [if_pos hb, if_pos hb, if_neg fun h => ha (h.symm.trans hb)]
      · rw [if_neg hb, if_neg hb]

/-- The changed cell is found at its address. -/
theorem cellAt_change_self (h : heap.cellAt a = some cell) : (heap.change f a).cellAt a = some (f cell) := by
  rw [cellAt_change, if_pos rfl, h]
  rfl

/-- At another address the cell is as before. -/
theorem cellAt_change_of_ne (h : b ≠ a) : (heap.change f a).cellAt b = heap.cellAt b := by
  rw [cellAt_change, if_neg h]

/-- Nothing is found from no scope on. -/
theorem find?_none (name : String) (heap : Heap) : heap.find? name none = none := by cases heap <;> rfl

/-- There is nothing to release. -/
theorem release_none (heap : Heap) : heap.release none = heap := by cases heap <;> rfl

/-- A scope that is older than the one at some address is not the first of the heap. -/
theorem ne_length_of_lt {first : Cell} {older : Heap} (h : b < a) (ha : a < (first :: older).length) : b ≠ older.length :=
  Nat.ne_of_lt (Nat.lt_of_lt_of_le h (Nat.le_of_lt_succ ha))

/-- Looking for a name begins in the scope at the address and goes on in the one around it. -/
theorem find?_of_cellAt (name : String) (h : heap.cellAt a = some cell) (hparent : ∀ b, cell.parent = some b → b < a) :
    heap.find? name (some a) = match cell.names.lookup name with
      | some slot => some (a, slot)
      | none => heap.find? name cell.parent := by
  induction heap with
  | nil => nomatch h
  | cons first older ih =>
    -- the scope around is not the first of the heap, wherever the scope at the address is
    have houter : find? name (first :: older) cell.parent = find? name older cell.parent := by
      cases hb : cell.parent with
      | none => rw [find?_none, find?_none]
      | some b => rw [find?, if_neg (ne_length_of_lt (hparent b hb) (cellAt_lt h))]
    rw [houter, find?]
    rw [cellAt_cons] at h
    by_cases ha : a = older.length
    · rw [if_pos ha] at h
      obtain rfl := Option.some.inj h
      exact if_pos ha
    · rw [if_neg ha] at h
      rw [if_neg ha]
      exact ih h

/-- Letting go of a scope that is held otherwise too takes a hold away and nothing else. -/
theorem release_of_held (h : heap.cellAt a = some cell) (hheld : cell.holds ≠ 1) :
    heap.release (some a) = heap.change .dropped a := by
  induction heap with
  | nil => nomatch h
  | cons first older ih =>
    rw [cellAt_cons] at h
    rw [release, change]
    by_cases ha : a = older.length
    · rw [if_pos ha] at h
      obtain rfl := Option.some.inj h
      rw [if_pos ha, if_pos ha, if_neg hheld]
    · rw [if_neg ha] at h
      rw [if_neg ha, if_neg ha, ih h]

/-- With the last hold a scope is gone, and lets go of the one around it. -/
theorem release_of_last (h : heap.cellAt a = some cell) (hlast : cell.holds = 1) (hparent : ∀ b, cell.parent = some b → b < a) :
    heap.release (some a) = (heap.change (fun _ => .released) a).release cell.parent := by
  induction heap with
  | nil => nomatch h
  | cons first older ih =>
    have houter (changed : Cell) (kept : Heap) (hlength : kept.length = older.length) :
        release (changed :: kept) cell.parent = changed :: release kept cell.parent := by
      cases hb : cell.parent with
      | none => rw [release_none, release_none]
      | some b => rw [release, if_neg (hlength ▸ ne_length_of_lt (hparent b hb) (cellAt_lt h))]
    rw [release, change]
    rw [cellAt_cons] at h
    by_cases ha : a = older.length
    · rw [if_pos ha] at h
      obtain rfl := Option.some.inj h
      rw [if_pos ha, if_pos ha, if_pos hlast, houter _ older rfl]
    · rw [if_neg ha] at h
      rw [if_neg ha, if_neg ha, ih h, houter _ _ (length_change _ older a)]

/-- Whether a scope has a name. -/
def declares (heap : Heap) (a : Address) (name : String) : Bool := (heap.cellAt a).any fun cell => (cell.names.lookup name).isSome

/-- What a scope declares is a matter of its cell. -/
theorem declares_congr {heap' : Heap} (h : heap'.cellAt a = heap.cellAt a) (name : String) :
    heap'.declares a name = heap.declares a name := by
  unfold declares
  rw [h]

/-- A scope with a cell declares the names of this cell. -/
theorem declares_of_cellAt (h : heap.cellAt a = some cell) (name : String) :
    heap.declares a name = (cell.names.lookup name).isSome := by
  unfold declares
  rw [h]
  rfl

/-- A change that leaves the names of a scope alone. -/
theorem declares_change (f : Cell → Cell) (hf : ∀ cell, (f cell).names = cell.names) (heap : Heap) (a b : Address) (name : String) :
    (heap.change f a).declares b name = heap.declares b name := by
  unfold declares
  rw [cellAt_change]
  split
  · cases heap.cellAt b with
    | none => rfl
    | some cell =>
      simp only [Option.map_some, Option.any_some, hf]
  · rfl

end Heap

/-! ## Chains -/

section Chains

variable {heap heap' : Heap} {a home : Address} {as front : List Address} {scope : Scope} {scopes scopes' : List Scope} {name : String}
  {slot : Slot}

/-- The scopes at some addresses, each of them directly inside the next, which is older. All of them are held, and the functions in
them are linked to them. Without their links they are the given scopes. -/
inductive Chained (heap : Heap) : List Address → List Scope → Prop
  | nil : Chained heap [] []
  | cons {a : Address} {as : List Address} {cell : Cell} {scopes : List Scope} (hcell : heap.cellAt a = some cell)
      (hparent : cell.parent = as.head?) (hbelow : ∀ b ∈ as, b < a) (hheld : cell.holds ≠ 0) (hlinks : cell.names.LinkTo a)
      (h : Chained heap as scopes) : Chained heap (a :: as) (cell.names.erase :: scopes)

/-- A scope is the innermost that has a name, among some scopes inside it and itself. -/
structure Innermost (heap : Heap) (name : String) (front : List Address) (home : Address) : Prop where
  inside : ∀ a ∈ front, heap.declares a name = false
  here : heap.declares home name = true

/-- A cell in front of lower addresses has a parent lower than itself. -/
theorem parent_lt {cell : Cell} (hparent : cell.parent = as.head?) (hbelow : ∀ b ∈ as, b < a) : ∀ b, cell.parent = some b → b < a :=
  fun _ hb => hbelow _ (List.mem_of_head? (hparent.symm.trans hb))

namespace Chained

/-- Every scope of a chain is held. -/
theorem held (h : Chained heap as scopes) : ∀ a ∈ as, ∃ cell, heap.cellAt a = some cell ∧ cell.holds ≠ 0 := by
  induction h with
  | nil => exact List.forall_mem_nil _
  | cons hcell _ _ hheld _ _ ih => exact List.forall_mem_cons.mpr ⟨⟨_, hcell, hheld⟩, ih⟩

/-- The scopes of a chain are cells of the heap. -/
theorem lt_length (h : Chained heap as scopes) : ∀ a ∈ as, a < heap.length := fun a ha =>
  have ⟨_, hcell, _⟩ := h.held a ha
  Heap.cellAt_lt hcell

/-- A chain is the same as long as its scopes change in nothing but how often they are held. -/
theorem transfer (h : Chained heap as scopes) (hsame : ∀ a ∈ as, ∀ cell, heap.cellAt a = some cell → cell.holds ≠ 0 →
    ∃ holds, holds ≠ 0 ∧ heap'.cellAt a = some { cell with holds }) : Chained heap' as scopes := by
  induction h with
  | nil => exact .nil
  | cons hcell hparent hbelow hheld hlinks h ih =>
    obtain ⟨hfirst, hrest⟩ := List.forall_mem_cons.mp hsame
    obtain ⟨holds, hheld', hcell'⟩ := hfirst _ hcell hheld
    have hchained := Chained.cons hcell' hparent hbelow hheld' hlinks (ih hrest)
    exact hchained

/-- A chain is a matter of the cells on it. -/
theorem congr (h : Chained heap as scopes) (hsame : ∀ a ∈ as, heap'.cellAt a = heap.cellAt a) : Chained heap' as scopes :=
  h.transfer fun a ha cell hcell hheld => ⟨cell.holds, hheld, (hsame a ha).trans hcell⟩

/-- Behind the innermost scope the chain goes on. -/
theorem tail (h : Chained heap (a :: as) scopes) : Chained heap as scopes.tail := by
  cases h with
  | cons hcell hparent hbelow hheld hlinks h => exact h

/-- The scopes further out are older. -/
theorem older (h : Chained heap (a :: as) scopes) : ∀ b ∈ as, b < a := by
  cases h with
  | cons hcell hparent hbelow hheld hlinks h => exact hbelow

/-- A scope that is not in the chain can change. -/
theorem changed (h : Chained heap as scopes) (ha : a ∉ as) (f : Cell → Cell) : Chained (heap.change f a) as scopes :=
  h.congr fun _ hb => Heap.cellAt_change_of_ne fun hba => ha (hba ▸ hb)

/-- The part of a chain that begins further out. -/
theorem outer (h : Chained heap (front ++ as) scopes) : Chained heap as (scopes.drop front.length) := by
  induction front generalizing scopes with
  | nil => exact h
  | cons a front ih =>
    cases h with
    | cons hcell hparent hbelow hheld hlinks h => exact ih h

/-- No scope of a chain comes twice. -/
theorem front_disjoint (h : Chained heap (front ++ as) scopes) : ∀ a ∈ front, a ∉ as := by
  induction front generalizing scopes with
  | nil => exact List.forall_mem_nil _
  | cons a front ih =>
    refine List.forall_mem_cons.mpr ⟨fun ha => ?_, ih h.tail⟩
    exact Nat.lt_irrefl a (h.older a (List.mem_append_right front ha))

/-- A chain is put together again when its inner scopes have not changed. -/
theorem restored (h : Chained heap (front ++ as) scopes) (hfront : ∀ a ∈ front, heap'.cellAt a = heap.cellAt a)
    (h' : Chained heap' as scopes') : Chained heap' (front ++ as) (scopes.take front.length ++ scopes') := by
  induction front generalizing scopes with
  | nil => exact h'
  | cons a front ih =>
    obtain ⟨hfirst, hrest⟩ := List.forall_mem_cons.mp hfront
    cases h with
    | cons hcell hparent hbelow hheld hlinks h => exact .cons (hfirst.trans hcell) hparent hbelow hheld hlinks (ih h hrest)

/-! Looking up names -/

/-- Along the chain a name is found as in the row of scopes. -/
theorem findSlot (h : Chained heap as scopes) (name : String) :
    findSlot? name scopes = (heap.find? name as.head?).map fun found => found.2.erase := by
  induction h with
  | nil => rw [List.head?_nil, Heap.find?_none]; rfl
  | @cons a as cell scopes hcell hparent hbelow hheld hlinks h ih =>
    rw [findSlot?, List.head?_cons, Heap.find?_of_cellAt name hcell (parent_lt hparent hbelow), lookup_erase]
    cases cell.names.lookup name with
    | none => rw [hparent]; exact ih
    | some slot => rfl

/-- What is found for a name is a slot of the innermost scope that has it. -/
theorem found (h : Chained heap as scopes) (hfound : heap.find? name as.head? = some (home, slot)) :
    ∃ front outer cell, as = front ++ home :: outer ∧ Innermost heap name front home ∧ heap.cellAt home = some cell ∧
      cell.names.lookup name = some slot ∧ cell.names.LinkTo home := by
  induction h with
  | nil => rw [List.head?_nil, Heap.find?_none] at hfound; contradiction
  | @cons a as cell scopes hcell hparent hbelow hheld hlinks h ih =>
    rw [List.head?_cons, Heap.find?_of_cellAt name hcell (parent_lt hparent hbelow)] at hfound
    have hdeclares := Heap.declares_of_cellAt hcell name
    cases hlookup : cell.names.lookup name with
    | none =>
      rw [hlookup] at hfound hdeclares
      obtain ⟨front, outer, at_, rfl, ⟨hinside, hhere⟩, hrest⟩ := ih (hparent ▸ hfound)
      exact ⟨a :: front, outer, at_, rfl, ⟨List.forall_mem_cons.mpr ⟨hdeclares, hinside⟩, hhere⟩, hrest⟩
    | some here =>
      rw [hlookup] at hfound hdeclares
      obtain ⟨rfl, rfl⟩ := Prod.mk.inj (Option.some.inj hfound)
      exact ⟨[], as, cell, rfl, ⟨List.forall_mem_nil _, hdeclares⟩, hcell, hlookup, hlinks⟩

/-- The scopes inside the innermost one that has a name are those that the chain counts. -/
theorem depth (h : Chained heap (front ++ home :: as) scopes) (hhome : Innermost heap name front home) :
    scopeDepth name scopes = front.length := by
  induction front generalizing scopes with
  | nil =>
    cases h with
    | cons hcell hparent hbelow hheld hlinks h =>
      have hhere := hhome.here
      rw [Heap.declares_of_cellAt hcell] at hhere
      rw [scopeDepth, lookup_erase, Option.isSome_map, if_pos hhere]
      rfl
  | cons a front ih =>
    cases h with
    | cons hcell hparent hbelow hheld hlinks h =>
      obtain ⟨hfirst, hinside⟩ := List.forall_mem_cons.mp hhome.inside
      rw [Heap.declares_of_cellAt hcell] at hfirst
      rw [scopeDepth, lookup_erase, Option.isSome_map, if_neg (by rw [hfirst]; exact Bool.false_ne_true)]
      exact congrArg (· + 1) (ih h ⟨hinside, hhome.here⟩)

/-! Changing a chain -/

/-- A value is put into the innermost scope. -/
theorem bound (h : Chained heap (a :: as) (scope :: scopes)) (name : String) (v : Value) :
    Chained (heap.change (.set name (.value v)) a) (a :: as) (Scope.set name (.value v) scope :: scopes) := by
  cases h with
  | cons hcell hparent hbelow hheld hlinks h =>
    have hrest := h.changed (fun ha => Nat.lt_irrefl a (hbelow a ha)) (.set name (.value v))
    have hchained := Chained.cons (Heap.cellAt_change_self hcell) hparent hbelow hheld (hlinks.set name (.value v) trivial) hrest
    rw [show Machine.Slot.value v = Slot.erase (.value v) from rfl, ← erase_set]
    exact hchained

/-- A value is put in place of the slot that is found. -/
theorem replaced (h : Chained heap as scopes) (hfound : heap.find? name as.head? = some (home, slot)) (v : Value) :
    Chained (heap.change (.set name (.value v)) home) as (replaceSlot name (.value v) scopes) := by
  induction h with
  | nil => rw [List.head?_nil, Heap.find?_none] at hfound; contradiction
  | @cons a as cell scopes hcell hparent hbelow hheld hlinks h ih =>
    rw [List.head?_cons, Heap.find?_of_cellAt name hcell (parent_lt hparent hbelow)] at hfound
    rw [replaceSlot, lookup_erase, Option.isSome_map]
    cases hlookup : cell.names.lookup name with
    | none =>
      rw [hlookup, hparent] at hfound
      obtain ⟨front, outer, at_, rfl, -⟩ := h.found hfound
      have hne : a ≠ home := fun ha => Nat.lt_irrefl a (hbelow a (by rw [ha]; simp))
      exact .cons ((Heap.cellAt_change_of_ne hne).trans hcell) hparent hbelow hheld hlinks (ih hfound)
    | some here =>
      rw [hlookup] at hfound
      obtain ⟨rfl, rfl⟩ := Prod.mk.inj (Option.some.inj hfound)
      exact (Chained.cons hcell hparent hbelow hheld hlinks h).bound name v

/-- A new scope is put inside the innermost one. -/
theorem entered (h : Chained heap as scopes) {names : Names} (hlinks : names.LinkTo heap.length) :
    Chained (⟨names, as.head?, 1⟩ :: heap) (heap.length :: as) (names.erase :: scopes) := by
  have hcell : Heap.cellAt (⟨names, as.head?, 1⟩ :: heap) heap.length = some ⟨names, as.head?, 1⟩ := if_pos rfl
  have hchained := Chained.cons hcell rfl h.lt_length Nat.one_ne_zero hlinks
    (h.congr fun a ha => Heap.cellAt_cons_of_lt _ (h.lt_length a ha))
  exact hchained

/-- Holding one of the scopes keeps the chain. -/
theorem retained (h : Chained heap as scopes) (place : Option Address) : Chained (heap.retain place) as scopes := by
  cases place with
  | none => exact h
  | some p =>
    refine h.transfer fun a ha cell hcell hheld => ?_
    rw [Heap.retain, Heap.cellAt_change, hcell]
    split
    · exact ⟨cell.holds + 1, Nat.succ_ne_zero _, rfl⟩
    · exact ⟨cell.holds, hheld, rfl⟩

/-- A chain does not change when one of several holds on a scope is given up. -/
theorem dropped (h : Chained heap as scopes) {cell : Cell} (hcell : heap.cellAt home = some cell) (hheld : 1 < cell.holds) :
    Chained (heap.change .dropped home) as scopes := by
  refine h.transfer fun a ha here hhere hne => ?_
  rw [Heap.cellAt_change]
  split
  · rename_i hhome
    obtain rfl : cell = here := Option.some.inj (hcell.symm.trans (hhome ▸ hhere))
    exact ⟨cell.holds - 1, Nat.sub_ne_zero_of_lt hheld, by rw [hhere]; rfl⟩
  · exact ⟨here.holds, hne, hhere⟩

end Chained

/-! ## What is kept -/

/-- What a part of a run leaves alone. Every scope stays inside the one it was in and is held as often as before. Only the scopes
that the part sees have changed, and only some of them have got new names. Nothing has hold of a new scope any more. -/
structure Kept (as growing : List Address) (heap after : Heap) : Prop where
  cells : ∀ a cell, heap.cellAt a = some cell → ∃ names, after.cellAt a = some { cell with names }
  others : ∀ a, a < heap.length → a ∉ as → after.cellAt a = heap.cellAt a
  declared : ∀ a, a < heap.length → a ∉ growing → ∀ name, after.declares a name = heap.declares a name
  gone : ∀ a cell, heap.length ≤ a → after.cellAt a = some cell → cell.holds = 0

namespace Kept

variable {growing : List Address} {after last : Heap}

/-- A heap to which nothing happens is kept. -/
theorem refl (as growing : List Address) (heap : Heap) : Kept as growing heap heap where
  cells _ cell hcell := ⟨cell.names, hcell⟩
  others _ _ _ := rfl
  declared _ _ _ _ := rfl
  gone _ _ ha hcell := absurd (Heap.cellAt_lt hcell) (Nat.not_lt.mpr ha)

/-- A heap that is kept never loses cells. -/
theorem length_le (h : Kept as growing heap after) : heap.length ≤ after.length := by
  by_contra hlt
  obtain ⟨cell, hcell⟩ := Heap.exists_cellAt (Nat.lt_of_not_le hlt)
  obtain ⟨names, hafter⟩ := h.cells _ cell hcell
  exact Nat.lt_irrefl _ (Heap.cellAt_lt hafter)

/-- What is kept twice is kept. -/
theorem trans (h : Kept as growing heap after) (h' : Kept as growing after last) : Kept as growing heap last where
  cells a cell hcell := by
    obtain ⟨names, hafter⟩ := h.cells a cell hcell
    obtain ⟨names', hlast⟩ := h'.cells a _ hafter
    exact ⟨names', hlast⟩
  others a ha hnot := (h'.others a (Nat.lt_of_lt_of_le ha h.length_le) hnot).trans (h.others a ha hnot)
  declared a ha hnot name :=
    (h'.declared a (Nat.lt_of_lt_of_le ha h.length_le) hnot name).trans (h.declared a ha hnot name)
  gone a cell ha hcell := by
    by_cases hnew : after.length ≤ a
    · exact h'.gone a cell hnew hcell
    · obtain ⟨mid, hmid⟩ := Heap.exists_cellAt (Nat.lt_of_not_le hnew)
      obtain ⟨names, hlast⟩ := h'.cells a mid hmid
      obtain rfl := Option.some.inj (hlast.symm.trans hcell)
      exact h.gone a mid ha hmid

/-- A part that sees less, and that gives no names to scopes, also keeps what one may that sees more. -/
theorem weaken {seen grown : List Address} (h : Kept seen grown heap after) (hseen : ∀ a ∈ seen, a ∈ as)
    (hgrown : ∀ a ∈ grown, a ∈ growing) : Kept as growing heap after where
  cells := h.cells
  others a ha hnot := h.others a ha fun hmem => hnot (hseen a hmem)
  declared a ha hnot := h.declared a ha fun hmem => hnot (hgrown a hmem)
  gone := h.gone

/-- The names of a scope of the chain have changed. -/
theorem of_set (ha : a ∈ as) (name : String) (slot : Slot) (hname : a ∈ growing ∨ heap.declares a name = true) :
    Kept as growing heap (heap.change (.set name slot) a) where
  cells b cell hcell := by
    rw [Heap.cellAt_change, hcell]
    split
    · exact ⟨cell.names.set name slot, rfl⟩
    · exact ⟨cell.names, rfl⟩
  others b hb hnot := Heap.cellAt_change_of_ne fun hba => hnot (hba ▸ ha)
  declared b hb hnot n := by
    by_cases hba : b = a
    · subst hba
      have hdeclares := hname.resolve_left hnot
      obtain ⟨cell, hcell⟩ := Heap.exists_cellAt hb
      rw [Heap.declares_of_cellAt hcell] at hdeclares
      rw [Heap.declares_of_cellAt hcell, Heap.declares_of_cellAt (Heap.cellAt_change_self hcell)]
      exact isSome_lookup_set hdeclares slot n
    · exact Heap.declares_congr (Heap.cellAt_change_of_ne hba) n
  gone b _ hb hcell := absurd (Heap.cellAt_lt hcell) (by rw [Heap.length_change]; exact Nat.not_lt.mpr hb)

/-- A scope that was entered is gone when it is left. -/
theorem closed {cell : Cell} (h : Kept (heap.length :: as) [heap.length] (cell :: heap) after) :
    Kept as [] heap (after.change (fun _ => .released) heap.length) where
  cells a here hhere := by
    have hlt := Heap.cellAt_lt hhere
    rw [Heap.cellAt_change_of_ne (Nat.ne_of_lt hlt)]
    exact h.cells a here ((Heap.cellAt_cons_of_lt cell hlt).trans hhere)
  others a ha hnot := by
    rw [Heap.cellAt_change_of_ne (Nat.ne_of_lt ha)]
    refine (h.others a (Nat.lt_succ_of_lt ha) ?_).trans (Heap.cellAt_cons_of_lt cell ha)
    exact List.not_mem_cons_of_ne_of_not_mem (Nat.ne_of_lt ha) hnot
  declared a ha _ name := by
    have hne := Nat.ne_of_lt ha
    rw [Heap.declares_congr (Heap.cellAt_change_of_ne hne)]
    refine (h.declared a (Nat.lt_succ_of_lt ha) ?_ name).trans (Heap.declares_congr (Heap.cellAt_cons_of_lt cell ha) name)
    exact List.not_mem_cons_of_ne_of_not_mem hne List.not_mem_nil
  gone a here ha hhere := by
    rw [Heap.cellAt_change] at hhere
    split at hhere
    · obtain ⟨-, -, rfl⟩ := Option.map_eq_some_iff.mp hhere
      rfl
    · rename_i hne
      exact h.gone a here (Nat.lt_of_le_of_ne ha (Ne.symm hne)) hhere

/-- A scope that has been held for the time of a run may be let go of afterwards. -/
theorem dropped (h : Kept as growing (heap.retain (some home)) after) (hhome : home ∈ as) :
    Kept as growing heap (after.change .dropped home) where
  cells a cell hcell := by
    by_cases ha : a = home
    · subst ha
      obtain ⟨names, hafter⟩ := h.cells a cell.retained (Heap.cellAt_change_self hcell)
      exact ⟨names, Heap.cellAt_change_self hafter⟩
    · rw [Heap.cellAt_change_of_ne ha]
      exact h.cells a cell ((Heap.cellAt_change_of_ne ha).trans hcell)
  others a ha hnot := by
    have hne : a ≠ home := fun hah => hnot (hah ▸ hhome)
    rw [Heap.cellAt_change_of_ne hne, h.others a (by rw [Heap.length_retain]; exact ha) hnot]
    exact Heap.cellAt_change_of_ne hne
  declared a ha hnot name := by
    rw [Heap.declares_change .dropped fun _ => rfl, h.declared a (by rw [Heap.length_retain]; exact ha) hnot]
    exact Heap.declares_change .retained (fun _ => rfl) heap home a name
  gone a cell ha hcell := by
    rw [← Heap.length_retain heap (some home)] at ha
    rw [Heap.cellAt_change] at hcell
    split at hcell
    · obtain ⟨here, hhere, rfl⟩ := Option.map_eq_some_iff.mp hcell
      rw [Cell.dropped, h.gone a here ha hhere]
    · exact h.gone a cell ha hcell

/-- What was held on purpose is let go of: the scopes are held as often as before. -/
theorem letGo (h : Kept as growing (heap.retain (some home)) after) (hc : Chained heap as scopes) (hhome : home ∈ as)
    (hafter : Chained after as scopes') :
    Chained (after.release (some home)) as scopes' ∧ Kept as growing heap (after.release (some home)) := by
  obtain ⟨cell, hcell, hheld⟩ := hc.held home hhome
  obtain ⟨names, hcell'⟩ := h.cells home cell.retained (Heap.cellAt_change_self hcell)
  have hmore : 1 < cell.retained.holds := Nat.succ_lt_succ (Nat.pos_of_ne_zero hheld)
  rw [Heap.release_of_held hcell' (Nat.ne_of_gt hmore)]
  exact ⟨hafter.dropped hcell' hmore, h.dropped hhome⟩

/-- A scope that was entered is left: it is gone, and the others are held as often as before. -/
theorem left {names : Names} (h : Kept (heap.length :: as) [heap.length] (⟨names, as.head?, 1⟩ :: heap.retain as.head?) after)
    (hc : Chained heap as scopes) (hafter : Chained after (heap.length :: as) scopes') :
    Chained (after.release (some heap.length)) as scopes'.tail ∧ Kept as [] heap (after.release (some heap.length)) := by
  rw [← Heap.length_retain heap as.head?] at h hafter ⊢
  obtain ⟨names', hcell⟩ := h.cells _ ⟨names, as.head?, 1⟩ (if_pos rfl)
  have hclosed : Chained (after.change (fun _ => .released) (heap.retain as.head?).length) as scopes'.tail :=
    hafter.tail.changed (fun hmem => Nat.lt_irrefl _ (hafter.older _ hmem)) _
  rw [Heap.release_of_last hcell rfl fun b hb => hafter.older b (List.mem_of_head? hb)]
  cases as with
  | nil =>
    rw [show (List.head? []) = (none : Option Address) from rfl, Heap.release_none]
    exact ⟨hclosed, h.closed⟩
  | cons a as => exact h.closed.letGo hc List.mem_cons_self hclosed

end Kept

/-- The innermost scope with a name stays the innermost one while no scope gets new names. -/
theorem Innermost.kept {after : Heap} (h : Innermost heap name front home) (hk : Kept as [] heap after)
    (hfront : ∀ a ∈ front, a < heap.length) (hhome : home < heap.length) : Innermost after name front home where
  inside a ha := (hk.declared a (hfront a ha) List.not_mem_nil name).trans (h.inside a ha)
  here := (hk.declared home hhome List.not_mem_nil name).trans h.here

/-- Holding a scope does not change where a name stands innermost. -/
theorem Innermost.retained (h : Innermost heap name front home) {place : Address} :
    Innermost (heap.retain (some place)) name front home where
  inside a ha := (Heap.declares_change .retained (fun _ => rfl) heap place a name).trans (h.inside a ha)
  here := (Heap.declares_change .retained (fun _ => rfl) heap place home name).trans h.here

end Chains

end HostScript.Machine.Linked
