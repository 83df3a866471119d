import Mathlib
import HostScript.Proofs.Value.Order
import HostScript.Proofs.Value.Table

/-!
# Sorted tables

The keys of an object are sorted as long as the order of values is one. Entries with increasing keys come to stand in a table as they are
put in (`Value.tableOf_eq`). If no float among the numbers of the keys is equal to two integers, then a table is sorted however it has been
built, and its keys are in order around every such key (`Value.inOrder_tableOf`); so whatever is put in is found.
-/

namespace HostScript.Value

variable {key : Value} {table : Table Value} {i : Nat}

/-! ## Entries with increasing keys -/

/-- The keys of entries increase. -/
abbrev Sorted (entries : List (Value × Value)) : Prop := entries.Pairwise fun first second => first.1.compare second.1 = .lt

/-- Entries put into a table one by one. -/
def putAll (entries : List (Value × Value)) (table : Table Value) : Table Value :=
  entries.foldl (fun table (key, value) => insertEntry key value table) table

/-- The table into which entries have been put one by one. -/
def tableOf (entries : List (Value × Value)) : Table Value := putAll entries .empty

/-- A key that is greater than all others goes to the end. -/
theorem insertEntry_last {key : Value} {table : Table Value} (h : ∀ entry ∈ table.entries, entry.1.compare key = .lt) (value : Value) :
    (insertEntry key value table).entries = table.entries ++ [(key, value)] := by
  refine Table.insert_last (fun entry hentry => ?_) key value
  rw [compare_swap entry.1 key, h entry hentry]
  rfl

/-- Sorted entries are put in one behind the other. -/
theorem putAll_entries {entries : List (Value × Value)} {table : Table Value} (h : Sorted (table.entries ++ entries)) :
    (putAll entries table).entries = table.entries ++ entries := by
  induction entries generalizing table with
  | nil => exact (List.append_nil table.entries).symm
  | cons entry entries ih =>
    obtain ⟨key, value⟩ := entry
    have hbefore : ∀ entry ∈ table.entries, entry.1.compare key = .lt :=
      fun entry hentry => (List.pairwise_append.mp h).2.2 entry hentry (key, value) List.mem_cons_self
    have hput := insertEntry_last hbefore value
    rw [List.append_cons, ← hput] at h ⊢
    exact ih h

/-- A table of sorted entries has just these entries. -/
theorem tableOf_eq {entries : List (Value × Value)} (h : Sorted entries) : ∃ heights, tableOf entries = ⟨entries, heights⟩ := by
  have hentries : (tableOf entries).entries = entries := @putAll_entries entries .empty h
  exact ⟨(tableOf entries).heights, congrArg (Table.mk · (tableOf entries).heights) hentries⟩

/-! ## Order around a key -/

/-- The keys of a table are in order around a key: in front of one that is not greater all are smaller. -/
def InOrder (key : Value) (table : Table Value) : Prop := Table.Ordered key.compare (table.entries.map Prod.fst)

/-- A new key that the others are in order around stands between smaller and greater ones. -/
theorem InOrder.exists_gap (h : InOrder key table) (hplace : table.place key.compare = .gap i) :
    ∃ before behind, table.entries = before ++ behind ∧ i = before.length ∧ (∀ entry ∈ before, key.compare entry.1 = .gt) ∧
      ∀ entry ∈ behind, key.compare entry.1 = .lt := Table.exists_gap h hplace

/-- A table stays sorted if its keys are in order around the key that is put in. -/
theorem InOrder.sorted_insertEntry (h : InOrder key table) (hsorted : Sorted table.entries) (value : Value) :
    Sorted (insertEntry key value table).entries := by
  unfold insertEntry
  cases hplace : table.place key.compare with
  | found i =>
    obtain ⟨⟨here, old⟩, hentry, -⟩ := Table.exists_found hplace
    have hkeys := Table.keys_set hentry value
    rw [Table.insert_found hplace hentry]
    unfold Sorted at hsorted ⊢
    rw [← List.pairwise_map (f := Prod.fst) (R := fun first second => compare first second = .lt)] at hsorted ⊢
    rwa [hkeys]
  | gap i =>
    obtain ⟨before, behind, hentries, rfl, hbefore, hbehind⟩ := h.exists_gap hplace
    rw [Table.insert_gap hplace]
    dsimp only
    rw [hentries] at hsorted ⊢
    obtain ⟨hfirst, hlast, hboth⟩ := List.pairwise_append.mp hsorted
    rw [Table.insertIdx_split, Sorted, List.pairwise_append]
    refine ⟨hfirst, List.pairwise_cons.mpr ⟨hbehind, hlast⟩, fun former hformer latter hlatter => ?_⟩
    rcases List.mem_cons.mp hlatter with rfl | hlatter
    · rw [compare_swap key former.1, hbefore former hformer]
      rfl
    · exact hboth former hformer latter hlatter

section

variable {S : Number → Prop} (hS : KeptApart S)

include hS

/-- Sorted keys are in order around a key if no float among all of them is equal to two integers. -/
theorem inOrder_of_sorted (hsorted : Sorted table.entries) (hkeys : ∀ entry ∈ table.entries, entry.1.Within S) (hkey : key.Within S) :
    InOrder key table := by
  unfold InOrder Table.Ordered
  rw [List.pairwise_map]
  refine hsorted.imp_of_mem fun {former latter} hformer hlatter hlt hnot => ?_
  have hcomposes := compare_composes hS former.1 latter.1 key (hkeys former hformer) (hkeys latter hlatter) hkey
  rw [compare_swap former.1 key, Ordering.swap_eq_gt]
  cases hcompare : key.compare latter.1 with
  | lt => exact absurd hcompare hnot
  | eq => rw [hcomposes.eq_right (by rw [compare_swap key, hcompare]; rfl), hlt]
  | gt => rw [hcomposes.same (by rw [compare_swap key, hcompare, hlt]; rfl), hlt]

/-- However a table is built from keys of numbers that are kept apart, it is sorted, and in order around each such key. -/
theorem inOrder_tableOf {entries : List (Value × Value)} (hentries : ∀ entry ∈ entries, entry.1.Within S) (hkey : key.Within S) :
    InOrder key (tableOf entries) := by
  have hput : ∀ (entries : List (Value × Value)) (table : Table Value), (∀ entry ∈ entries, entry.1.Within S) →
      Sorted table.entries → (∀ entry ∈ table.entries, entry.1.Within S) →
      Sorted (putAll entries table).entries ∧ ∀ entry ∈ (putAll entries table).entries, entry.1.Within S := by
    intro entries
    induction entries with
    | nil => exact fun table _ hsorted hkeys => ⟨hsorted, hkeys⟩
    | cons entry entries ih =>
      intro table hall hsorted hkeys
      obtain ⟨hentry, hentries⟩ := List.forall_mem_cons.mp hall
      have hordered := inOrder_of_sorted hS hsorted hkeys hentry
      refine ih _ hentries (hordered.sorted_insertEntry hsorted entry.2) fun other hother => ?_
      rcases Table.mem_insert hother with rfl | hother | ⟨here, old, hhere, rfl⟩
      · exact hentry
      · exact hkeys other hother
      · exact hkeys (here, old) hhere
  obtain ⟨hsorted, hkeys⟩ := hput entries .empty hentries .nil (List.forall_mem_nil _)
  exact inOrder_of_sorted hS hsorted hkeys hkey

end

end HostScript.Value
