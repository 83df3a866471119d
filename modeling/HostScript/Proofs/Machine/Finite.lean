import Mathlib
import HostScript.Dialect.HostText
import HostScript.Proofs.Machine.Values
import HostScript.Proofs.Number.Finite

/-!
# Numbers stay finite

No infinity and nothing that is no number comes up in a run: literals and what is read from a text are finite, arithmetic and sums refuse
what is not, and everything else passes on the numbers it is given or changes them in ways that keep them finite. So the values without
other numbers are a class that no operation leaves (`lasting_finite`), and no number is ever written as `null` (`reached_finite`).
-/

namespace HostScript

namespace Value

/-! ## The numbers in a value -/

mutual

/-- The numbers in a value, those in keys included. -/
def numbers : Value → List Number
  | .null | .bool _ | .string _ => []
  | .number n => [n]
  | .array items => itemNumbers items
  | .object ⟨entries, _⟩ => entryNumbers entries

/-- The numbers in values. -/
def itemNumbers : List Value → List Number
  | [] => []
  | v :: rest => v.numbers ++ itemNumbers rest

/-- The numbers in keys and values. -/
def entryNumbers : List (Value × Value) → List Number
  | [] => []
  | (key, value) :: rest => key.numbers ++ value.numbers ++ entryNumbers rest

end

/-- All numbers in a value are finite. -/
def Finite (v : Value) : Prop := ∀ n ∈ v.numbers, n.isFinite

variable {items : List Value} {v w : Value} {n : Number}

theorem finite_number : (Value.number n).Finite ↔ n.isFinite := List.forall_mem_singleton

theorem finite_array : (Value.array items).Finite ↔ ∀ v ∈ items, v.Finite := by
  change (∀ n ∈ itemNumbers items, n.isFinite) ↔ _
  induction items with
  | nil => simp [itemNumbers]
  | cons v rest ih => rw [itemNumbers, List.forall_mem_append, List.forall_mem_cons, ih, Finite]

theorem finite_object {table : Table Value} :
    (Value.object table).Finite ↔ ∀ entry ∈ table.entries, entry.1.Finite ∧ entry.2.Finite := by
  obtain ⟨entries, heights⟩ := table
  change (∀ n ∈ entryNumbers entries, n.isFinite) ↔ _
  induction entries with
  | nil => simp [entryNumbers]
  | cons entry rest ih =>
    obtain ⟨key, value⟩ := entry
    rw [entryNumbers, List.forall_mem_append, List.forall_mem_append, List.forall_mem_cons, ih, Finite, Finite]

end Value

/-! ## Builtin functions -/

namespace Builtin

open Program.NamesAux (bind_eq_ok)
open Machine.ScopingAux (mapError_ok)

variable {f : Builtin} {v w : Value} {n : Number} {args : List Value}

theorem finite_of_numeric (h : v.Finite) (hn : numeric f v = .ok n) : n.isFinite := by
  cases v with
  | number m =>
    obtain rfl := Except.ok.inj hn
    exact Value.finite_number.mp h
  | _ => nomatch hn

theorem finite_of_convert (h : v.Finite) (hn : convert f v = .ok n) : n.isFinite := by
  cases v with
  | number m =>
    obtain rfl := Except.ok.inj hn
    exact Value.finite_number.mp h
  | bool b =>
    obtain rfl := Except.ok.inj hn
    exact Number.isFinite_ofNat (by cases b <;> decide)
  | string text =>
    unfold convert at hn
    dsimp only at hn
    split at hn
    · rename_i hread
      obtain rfl := Except.ok.inj hn
      exact Number.isFinite_of_ofText hread
    · nomatch hn
  | _ => nomatch hn

/-- The sum of an array is refused if it is not finite, whatever its items. -/
theorem finite_of_total {items : List Value} (hn : total items = .ok n) : n.isFinite := by
  unfold total at hn
  obtain ⟨sum, -, hn⟩ := bind_eq_ok.mp hn
  exact Number.isFinite_of_ensureFinite (mapError_ok hn)

/-- The values among which `max` and `min` choose: the items of the only argument, if it is an array, or the arguments. -/
theorem candidates_ok {first : Value} {rest : List Value} (h : candidates f args = .ok (first, rest)) :
    args = first :: rest ∨ args = [.array (first :: rest)] := by
  unfold candidates at h
  extract_lets items at h
  have hitems : args = items ∨ args = [.array items] := by
    unfold items
    split
    · exact .inr rfl
    · exact .inl rfl
  clear_value items
  split at h
  · cases h
  · cases h
  · split at h
    · obtain ⟨rfl, rfl⟩ := Prod.mk.inj (Except.ok.inj h)
      exact hitems
    · cases h

theorem finite_candidates {first : Value} {rest : List Value} (h : ∀ arg ∈ args, arg.Finite)
    (hc : candidates f args = .ok (first, rest)) : first.Finite ∧ ∀ v ∈ rest, v.Finite := by
  rcases candidates_ok hc with rfl | rfl
  · exact List.forall_mem_cons.mp h
  · exact List.forall_mem_cons.mp (Value.finite_array.mp (List.forall_mem_singleton.mp h))

theorem finite_extreme {direction : Ordering} {first : Value} {rest : List Value} (hfirst : first.Finite)
    (hrest : ∀ v ∈ rest, v.Finite) : (extreme direction first rest).Finite := by
  unfold extreme
  induction rest generalizing first with
  | nil => exact hfirst
  | cons v rest ih =>
    obtain ⟨hv, hrest⟩ := List.forall_mem_cons.mp hrest
    rw [List.foldl_cons]
    refine ih ?_ hrest
    split
    · exact hv
    · exact hfirst

theorem finite_rangeItems {start stop : Int} {items : List Value} (h : rangeItems start stop = .ok items) :
    (Value.array items).Finite := by
  unfold rangeItems at h
  split at h
  · nomatch h
  · obtain rfl := Except.ok.inj h
    refine Value.finite_array.mpr fun v hv => ?_
    obtain ⟨k, -, rfl⟩ := List.mem_map.mp hv
    exact Value.finite_number.mpr rfl

/-- The builtin functions give finite numbers for finite numbers. -/
theorem finite_apply (h : ∀ arg ∈ args, arg.Finite) (hw : f.apply args = .ok w) : w.Finite := by
  have hstring : ∀ text, (Value.string text).Finite := fun _ => List.forall_mem_nil _
  unfold apply at hw
  split at hw
  · obtain ⟨n, hn, hw⟩ := bind_eq_ok.mp hw
    obtain rfl := Except.ok.inj hw
    exact Value.finite_number.mpr (Number.isFinite_abs (finite_of_numeric (h _ List.mem_cons_self) hn))
  · obtain rfl := Except.ok.inj hw
    exact List.forall_mem_nil _
  · obtain ⟨n, hn, hw⟩ := bind_eq_ok.mp hw
    obtain rfl := Except.ok.inj hw
    exact Value.finite_number.mpr (Number.isFinite_toFloat (finite_of_convert (h _ List.mem_cons_self) hn))
  · obtain ⟨n, hn, hw⟩ := bind_eq_ok.mp hw
    obtain rfl := Except.ok.inj hw
    exact Value.finite_number.mpr (Number.isFinite_trunc (finite_of_convert (h _ List.mem_cons_self) hn))
  · obtain ⟨count, -, hw⟩ := bind_eq_ok.mp hw
    obtain rfl := Except.ok.inj hw
    exact Value.finite_number.mpr (Number.isFinite_ofNat count.toNat_lt.le)
  · obtain ⟨⟨first, rest⟩, hc, hw⟩ := bind_eq_ok.mp hw
    obtain rfl := Except.ok.inj hw
    obtain ⟨hfirst, hrest⟩ := finite_candidates h hc
    exact finite_extreme hfirst hrest
  · obtain ⟨⟨first, rest⟩, hc, hw⟩ := bind_eq_ok.mp hw
    obtain rfl := Except.ok.inj hw
    obtain ⟨hfirst, hrest⟩ := finite_candidates h hc
    exact finite_extreme hfirst hrest
  · obtain ⟨stop, -, hw⟩ := bind_eq_ok.mp hw
    obtain ⟨items, hitems, hw⟩ := bind_eq_ok.mp hw
    obtain rfl := Except.ok.inj hw
    exact finite_rangeItems hitems
  · obtain ⟨start, -, hw⟩ := bind_eq_ok.mp hw
    obtain ⟨stop, -, hw⟩ := bind_eq_ok.mp hw
    obtain ⟨items, hitems, hw⟩ := bind_eq_ok.mp hw
    obtain rfl := Except.ok.inj hw
    exact finite_rangeItems hitems
  · nomatch hw
  · obtain ⟨n, hn, hw⟩ := bind_eq_ok.mp hw
    obtain rfl := Except.ok.inj hw
    exact Value.finite_number.mpr (Number.isFinite_round (finite_of_numeric (h _ List.mem_cons_self) hn))
  · obtain rfl := Except.ok.inj hw
    exact hstring _
  · obtain ⟨n, hn, hw⟩ := bind_eq_ok.mp hw
    obtain rfl := Except.ok.inj hw
    exact Value.finite_number.mpr (finite_of_total hn)
  · nomatch hw
  · obtain rfl := Except.ok.inj hw
    exact hstring _
  · nomatch hw

end Builtin

namespace Machine

open Program.NamesAux (bind_eq_ok)
open ScopingAux (mapError_ok)

/-! ## Operators -/

theorem finite_unary {op : Script.UnaryOp} {operand v : Value} (h : operand.Finite) (hv : unary op operand = .ok v) : v.Finite := by
  unfold unary at hv
  split at hv
  · obtain rfl := Except.ok.inj hv
    exact List.forall_mem_nil _
  · obtain rfl := Except.ok.inj hv
    exact Value.finite_number.mpr (Number.isFinite_neg (Value.finite_number.mp h))
  · nomatch hv

/-- Arithmetic refuses results that are not finite, whatever its operands. -/
theorem finite_arithNumbers {op : Script.ArithOp} {a b n : Number} (h : arithNumbers op a b = .ok n) : n.isFinite := by
  cases op with
  | div | mod =>
    obtain ⟨result, -, h⟩ := bind_eq_ok.mp h
    exact Number.isFinite_of_ensureFinite h
  | _ => exact Number.isFinite_of_ensureFinite h

theorem finite_arith {op : Script.ArithOp} {left right v : Value} (hleft : left.Finite) (hright : right.Finite)
    (hv : arith op left right = .ok v) : v.Finite := by
  unfold arith at hv
  split at hv
  · rename_i a b
    cases hn : arithNumbers op a b with
    | error fault =>
      rw [hn] at hv
      nomatch hv
    | ok n =>
      rw [hn] at hv
      obtain rfl := Except.ok.inj hv
      exact Value.finite_number.mpr (finite_arithNumbers hn)
  · obtain rfl := Except.ok.inj hv
    exact List.forall_mem_nil _
  · obtain rfl := Except.ok.inj hv
    exact List.forall_mem_nil _
  · obtain rfl := Except.ok.inj hv
    exact Value.finite_array.mpr (List.forall_mem_append.mpr ⟨Value.finite_array.mp hleft, Value.finite_array.mp hright⟩)
  · nomatch hv

/-! ## Runs -/

/-- No operation of a script makes a number that is not finite. -/
theorem lasting_finite : Lasting Value.Finite where
  null := List.forall_mem_nil _
  bool _ := List.forall_mem_nil _
  string _ := List.forall_mem_nil _
  array h := Value.finite_array.mpr h
  items h := Value.finite_array.mp h
  object h := Value.finite_object.mpr h
  entries h := Value.finite_object.mp h
  unary h hv := finite_unary h hv
  arith hleft hright hv := finite_arith hleft hright hv
  apply h hv := Builtin.finite_apply h hv

/-- The literals of a script are finite. -/
theorem literals_finite : Program.Literals Value.Finite fun n => n.isFinite where
  null := List.forall_mem_nil _
  bool _ := List.forall_mem_nil _
  string _ := List.forall_mem_nil _
  number h := Value.finite_number.mpr h

/-- The constants of a program that is compiled from a text are finite. -/
theorem constants_finite {source : Source} {program : Program} (h : Program.ofSource source = .ok program) :
    program.body.ConstantsIn Value.Finite := by
  unfold Program.ofSource at h
  obtain ⟨m, hm, h⟩ := bind_eq_ok.mp h
  exact literals_finite.ofModule_constantsIn (mapError_ok h)
    (Script.ofSource_numbersIn (fun _ _ => Number.isFinite_of_ofText) (mapError_ok hm))

/-- At every point of a run of a dialect source, under any limits and with any answers, all numbers in all variables, exports, arguments,
results and outputs are finite, and none of them is written as `null`. -/
theorem reached_finite {source : Source} {program : Program} (h : Program.ofSource (Dialect.render source).script = .ok program)
    {host : Host} {fuel : Nat} {limits : Limits} {answers : List String} {p : Point}
    (hp : Reached host ⟨fuel, .execBlock program.body, .start limits answers⟩ p) :
    ∀ v ∈ p.values host, ∀ n ∈ v.numbers, n.isFinite ∧ n.compact ≠ "null" := by
  intro v hv n hn
  have hfinite := lasting_finite.reached (constants_finite h) hp v hv n hn
  exact ⟨hfinite, Number.compact_ne_null hfinite⟩

/-- A run with a quotient, from its first point on. -/
theorem reached_finite_half :
    ∃ program, Program.ofSource (Dialect.render ⟨"half", "x = 1 / 2;"⟩).script = .ok program ∧
      ∀ (host : Host) (fuel : Nat) (limits : Limits) (answers : List String),
        ∀ v ∈ (⟨fuel, .execBlock program.body, .start limits answers⟩ : Point).values host,
          ∀ n ∈ v.numbers, n.isFinite ∧ n.compact ≠ "null" := by
  have hcompiles : (Program.ofSource
      (Dialect.render ⟨"half", "x = 1 / 2;"⟩).script).toOption.isSome := by decide +kernel
  cases h : Program.ofSource (Dialect.render ⟨"half", "x = 1 / 2;"⟩).script with
  | error fault =>
    rw [h] at hcompiles
    contradiction
  | ok program => exact ⟨program, rfl, fun host fuel limits answers => reached_finite h (.start _)⟩

end Machine

end HostScript
