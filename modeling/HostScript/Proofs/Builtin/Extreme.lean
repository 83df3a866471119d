import Mathlib
import HostScript.Builtin
import HostScript.Proofs.Value.Order

/-!
# The greatest and the least of some values

`max` and `min` keep one candidate and compare every further item with it alone. Among numbers of any size a float can equal two integers
that differ, so equality is no help there. The strict order is transitive all the same (`Number.compare_lt_trans`), and so is that of
strings. A candidate therefore gives way only to an item that beats all that gave way before, and nothing beats the last one
(`extremes_chosen`). What nothing beats is not unique, but any two such items are equal.
-/

namespace HostScript

namespace Number

variable {a b c : Number}

/-- A smaller number is not rounded to a greater float. -/
theorem key_le_of_compare_lt (h : a.compare b = .lt) : a.key ≤ b.key := by
  cases a with
  | float x =>
    rw [compare_float_left] at h
    exact (Int.compare_eq_lt.mp h).le
  | int i =>
    cases b with
    | float y =>
      rw [compare_float_right] at h
      exact (Int.compare_eq_lt.mp h).le
    | int j => exact key_mono (Int.compare_eq_lt.mp h).le

/-- What is rounded to a smaller float is smaller. -/
theorem compare_lt_of_key_lt (h : a.key < b.key) : a.compare b = .lt := by
  cases a with
  | float x =>
    rw [compare_float_left]
    exact Int.compare_eq_lt.mpr h
  | int i =>
    cases b with
    | float y =>
      rw [compare_float_right]
      exact Int.compare_eq_lt.mpr h
    | int j =>
      refine Int.compare_eq_lt.mpr (not_le.mp fun hle => ?_)
      exact absurd (key_mono hle) (not_le.mpr h)

/-- The strict order of all numbers is transitive, though their equality is not. -/
theorem compare_lt_trans (hab : a.compare b = .lt) (hbc : b.compare c = .lt) : a.compare c = .lt := by
  have hleft := key_le_of_compare_lt hab
  have hright := key_le_of_compare_lt hbc
  -- a float among the three makes one of the two steps strict after rounding
  cases b with
  | float y =>
    rw [compare_float_right] at hab
    exact compare_lt_of_key_lt ((Int.compare_eq_lt.mp hab).trans_le hright)
  | int j =>
    cases a with
    | float x =>
      rw [compare_float_left] at hab
      exact compare_lt_of_key_lt ((Int.compare_eq_lt.mp hab).trans_le hright)
    | int i =>
      cases c with
      | float z =>
        rw [compare_float_right] at hbc
        exact compare_lt_of_key_lt (hleft.trans_lt (Int.compare_eq_lt.mp hbc))
      | int k => exact Int.compare_eq_lt.mpr ((Int.compare_eq_lt.mp hab).trans (Int.compare_eq_lt.mp hbc))

end Number

namespace Value

/-- Values among which there is an order to choose by: all of them are numbers, or all of them are strings. -/
def Comparable (items : List Value) : Prop := (∀ v ∈ items, ∃ n, v = .number n) ∨ ∀ v ∈ items, ∃ text, v = .string text

variable {items other : List Value} {a b c : Value}

/-- The order of the values is the same for every order of the list. -/
theorem Comparable.perm (h : Comparable items) (hperm : other.Perm items) : Comparable other :=
  h.imp (fun h v hv => h v (hperm.mem_iff.mp hv)) fun h v hv => h v (hperm.mem_iff.mp hv)

theorem Comparable.lt_trans (h : Comparable items) (ha : a ∈ items) (hb : b ∈ items) (hc : c ∈ items) (hab : a.compare b = .lt)
    (hbc : b.compare c = .lt) : a.compare c = .lt := by
  rcases h with h | h
  · obtain ⟨m, rfl⟩ := h a ha
    obtain ⟨n, rfl⟩ := h b hb
    obtain ⟨k, rfl⟩ := h c hc
    exact Number.compare_lt_trans hab hbc
  · obtain ⟨s, rfl⟩ := h a ha
    obtain ⟨t, rfl⟩ := h b hb
    obtain ⟨u, rfl⟩ := h c hc
    have hst : Ord.compare s t = .lt := hab
    have htu : Ord.compare t u = .lt := hbc
    have hsu : Ord.compare s u = .lt := Std.TransCmp.lt_trans hst htu
    exact hsu

/-- Two steps in one direction are a step in that direction. -/
theorem Comparable.trans (h : Comparable items) {direction : Ordering} (hne : direction ≠ .eq) (ha : a ∈ items) (hb : b ∈ items)
    (hc : c ∈ items) (hab : a.compare b = direction) (hbc : b.compare c = direction) : a.compare c = direction := by
  cases direction with
  | eq => exact absurd rfl hne
  | lt => exact h.lt_trans ha hb hc hab hbc
  | gt =>
    rw [compare_swap] at hab hbc ⊢
    rw [Ordering.swap_eq_gt] at hab hbc ⊢
    exact h.lt_trans hc hb ha hbc hab

end Value

namespace Builtin

open Value (Comparable)

variable {items rest other : List Value} {direction : Ordering} {first best : Value} {f : Builtin}

/-! ## Keeping the best item -/

/-- A further item takes the place of the candidate if it is beyond it. -/
theorem extreme_cons (direction : Ordering) (first v : Value) (rest : List Value) :
    extreme direction first (v :: rest) = extreme direction (if v.compare first == direction then v else first) rest := rfl

theorem extreme_mem (direction : Ordering) (first : Value) (rest : List Value) : extreme direction first rest ∈ first :: rest := by
  induction rest generalizing first with
  | nil => exact List.mem_singleton.mpr rfl
  | cons v rest ih =>
    rw [extreme_cons]
    split
    · exact List.mem_cons_of_mem _ (ih v)
    · rcases List.mem_cons.mp (ih first) with h | h
      · exact List.mem_cons.mpr (.inl h)
      · exact List.mem_cons_of_mem _ (List.mem_cons_of_mem _ h)

/-- What is kept in the end is the first candidate, or beyond it. -/
theorem extreme_first (h : Comparable items) (hne : direction ≠ .eq) (hitems : first :: rest ⊆ items) :
    extreme direction first rest = first ∨ (extreme direction first rest).compare first = direction := by
  induction rest generalizing first with
  | nil => exact .inl rfl
  | cons v rest ih =>
    obtain ⟨hfirst, hv, hrest⟩ : first ∈ items ∧ v ∈ items ∧ rest ⊆ items := by simpa using hitems
    rw [extreme_cons]
    split
    · rename_i hbeats
      have hbeats := eq_of_beq hbeats
      have hlater : v :: rest ⊆ items := List.cons_subset.mpr ⟨hv, hrest⟩
      right
      rcases ih hlater with hsame | hbeyond
      · rw [hsame, hbeats]
      · exact h.trans hne (hlater (extreme_mem direction v rest)) hv hfirst hbeyond hbeats
    · exact ih (List.cons_subset.mpr ⟨hfirst, hrest⟩)

/-- Nothing is beyond what is kept in the end. -/
theorem extreme_unbeaten (h : Comparable items) (hne : direction ≠ .eq) (hitems : first :: rest ⊆ items) :
    ∀ v ∈ first :: rest, v.compare (extreme direction first rest) ≠ direction := by
  induction rest generalizing first with
  | nil =>
    intro v hv
    obtain rfl := List.mem_singleton.mp hv
    exact (v.compare_self).trans_ne hne.symm
  | cons w rest ih =>
    obtain ⟨hfirst, hw, hrest⟩ : first ∈ items ∧ w ∈ items ∧ rest ⊆ items := by simpa using hitems
    rw [extreme_cons]
    split
    · rename_i hbeats
      have hlater : w :: rest ⊆ items := List.cons_subset.mpr ⟨hw, hrest⟩
      refine List.forall_mem_cons.mpr ⟨fun hbeyond => ?_, ih hlater⟩
      -- the candidate that gave way would bring the one that it gave way to along
      have hkept := hlater (extreme_mem direction w rest)
      exact ih hlater w List.mem_cons_self (h.trans hne hw hfirst hkept (eq_of_beq hbeats) hbeyond)
    · rename_i hstays
      have hothers : first :: rest ⊆ items := List.cons_subset.mpr ⟨hfirst, hrest⟩
      have hunbeaten := ih hothers
      refine List.forall_mem_cons.mpr ⟨hunbeaten first List.mem_cons_self, List.forall_mem_cons.mpr ⟨fun hbeyond => ?_, ?_⟩⟩
      · refine hstays (beq_iff_eq.mpr ?_)
        rcases extreme_first h hne hothers with hsame | hkept
        · rwa [hsame] at hbeyond
        · exact h.trans hne hw (hothers (extreme_mem direction first rest)) hfirst hbeyond hkept
      · exact fun v hv => hunbeaten v (List.mem_cons_of_mem _ hv)

/-! ## The choice -/

/-- A value is one of the items, and none of them is beyond it. -/
structure IsExtreme (direction : Ordering) (items : List Value) (best : Value) : Prop where
  mem : best ∈ items
  unbeaten : ∀ v ∈ items, v.compare best ≠ direction

/-- Two values of this kind are equal. -/
theorem IsExtreme.same {other : Value} (h : IsExtreme direction items best) (hother : IsExtreme direction items other)
    (hne : direction ≠ .eq) : best.same other := by
  have hforth := hother.unbeaten best h.mem
  have hback := h.unbeaten other hother.mem
  rw [Value.compare_swap] at hback
  refine beq_iff_eq.mpr ?_
  cases hcompare : best.compare other <;> cases direction <;> simp_all

theorem isExtreme_extreme (h : Comparable (first :: rest)) (hne : direction ≠ .eq) :
    IsExtreme direction (first :: rest) (extreme direction first rest) :=
  ⟨extreme_mem direction first rest, extreme_unbeaten h hne (List.Subset.refl _)⟩

/-- Values that are all numbers or all strings pass the check for it. -/
theorem all_of_comparable (h : Comparable items) : (items.all isNumber || items.all Value.isString) = true := by
  rw [Bool.or_eq_true, List.all_eq_true, List.all_eq_true]
  refine h.imp (fun h v hv => ?_) fun h v hv => ?_
  · obtain ⟨n, rfl⟩ := h v hv
    rfl
  · obtain ⟨text, rfl⟩ := h v hv
    rfl

/-- The choice is among the elements of an array as it is among arguments. -/
theorem candidates_comparable (h : Comparable (first :: rest)) (f : Builtin) :
    candidates f [.array (first :: rest)] = .ok (first, rest) ∧ candidates f (first :: rest) = .ok (first, rest) := by
  have hall := all_of_comparable h
  have hflat : ∀ elements, first ≠ .array elements := by
    rintro elements rfl
    rcases h with h | h
    · obtain ⟨n, hn⟩ := h _ List.mem_cons_self
      cases hn
    · obtain ⟨text, htext⟩ := h _ List.mem_cons_self
      cases htext
  constructor
  · exact if_pos hall
  · unfold candidates
    split
    · rename_i elements heq
      exact absurd (List.cons.inj heq).1 (hflat elements)
    · exact if_pos hall

/-- The function gives one of the values that no other one is beyond, whether it is called with an array of them or with the values
themselves, and something equal to it for the same values in any other order. -/
def Settles (f : Builtin) (direction : Ordering) (items : List Value) : Prop :=
  ∃ best, IsExtreme direction items best ∧ f.apply [.array items] = .ok best ∧ f.apply items = .ok best ∧
    ∀ other, other.Perm items → ∃ best', f.apply [.array other] = .ok best' ∧ f.apply other = .ok best' ∧ best'.same best

/-- The functions that choose by keeping the best item so far. -/
structure Chooses (f : Builtin) (direction : Ordering) : Prop where
  beyond : direction ≠ .eq
  apply (args : List Value) : f.apply args = (candidates f args).map fun (first, rest) => extreme direction first rest

theorem chooses_max : Chooses .max .gt := ⟨by decide, fun args => by unfold apply; cases candidates .max args <;> rfl⟩

theorem chooses_min : Chooses .min .lt := ⟨by decide, fun args => by unfold apply; cases candidates .min args <;> rfl⟩

theorem Chooses.apply_comparable (hf : Chooses f direction) (h : Comparable (first :: rest)) :
    f.apply [.array (first :: rest)] = .ok (extreme direction first rest) ∧
      f.apply (first :: rest) = .ok (extreme direction first rest) := by
  obtain ⟨harray, hargs⟩ := candidates_comparable h f
  rw [hf.apply, hf.apply, harray, hargs]
  exact ⟨rfl, rfl⟩

theorem Chooses.settles (hf : Chooses f direction) (h : Comparable items) (hne : items ≠ []) : Settles f direction items := by
  obtain ⟨first, rest, rfl⟩ := List.exists_cons_of_ne_nil hne
  have hbest := isExtreme_extreme h hf.beyond
  obtain ⟨harray, hargs⟩ := hf.apply_comparable h
  refine ⟨_, hbest, harray, hargs, fun other hperm => ?_⟩
  obtain ⟨first', rest', rfl⟩ := List.exists_cons_of_ne_nil fun hnil : other = [] => hne (hnil ▸ hperm).nil_eq.symm
  have hother := isExtreme_extreme (h.perm hperm) hf.beyond
  obtain ⟨harray', hargs'⟩ := hf.apply_comparable (h.perm hperm)
  have hmoved : IsExtreme direction (first :: rest) (extreme direction first' rest') :=
    ⟨hperm.mem_iff.mp hother.mem, fun v hv => hother.unbeaten v (hperm.mem_iff.mpr hv)⟩
  exact ⟨_, harray', hargs', hmoved.same hbest hf.beyond⟩

/-- Among one or more values that are all numbers or all strings, `max` gives one that none is greater than and `min` one that none is
less than, in whatever order the values are given and whether or not they are in an array. -/
theorem extremes_chosen {items : List Value} (hne : items ≠ []) (h : Comparable items) :
    Settles .max .gt items ∧ Settles .min .lt items :=
  ⟨chooses_max.settles h hne, chooses_min.settles h hne⟩

/-- A float and two integers beyond `2 ^ 53` that are both equal to it, though the second one is greater, and a negative zero. -/
def crowded : List Value := [.number (.float (.ofInt 9007199254740992)), .number (.int 9007199254740992),
  .number (.int 9007199254740993), .number (.float ⟨true, 0⟩)]

theorem extremes_chosen_crowded : crowded ≠ [] ∧ Comparable crowded ∧ Settles .max .gt crowded ∧ Settles .min .lt crowded := by
  have hcomparable : Comparable crowded := .inl (by simp [crowded])
  exact ⟨List.cons_ne_nil _ _, hcomparable, extremes_chosen (List.cons_ne_nil _ _) hcomparable⟩

/-- Which of two equal values is given is up to their order. -/
example : let x : Value := .number (.float (.ofInt 9007199254740992))
    let j : Value := .number (.int 9007199254740993)
    extreme .gt x [j] = x ∧ extreme .gt j [x] = j := by
  intro x j
  have hforth : j.compare x = .eq := by decide +kernel
  have hback : x.compare j = .eq := by decide +kernel
  rw [extreme_cons, extreme_cons, hforth, hback]
  exact ⟨rfl, rfl⟩

end Builtin

end HostScript
