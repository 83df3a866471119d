import Mathlib
import HostScript.Value.Printer
import HostScript.Proofs.Number.Digits
import HostScript.Proofs.Script.Printed
import HostScript.Proofs.Value.Sorted

/-!
# Values as literals

The compact text of a value without floats is an expression of the host script (`Value.literal`). `Value.pasted` is what that
expression denotes: the value itself, but for the least integer. The literal has no integer of that magnitude, so it denotes the
opposite of a float, which is equal to the integer (`Value.pasted_compare`) and printed differently. The tables of its objects are built
anew, so that they may be laid out in another way, which nothing that is written shows (`Value.compact_flat`).
-/

namespace HostScript

open Script (Expr UnaryOp)

namespace Number

/-- The magnitude of an integer. That of the least integer is a float. -/
def magnitude (i : Int64) : Number := .ofNat i.toInt.natAbs

/-- The number that the text of a number denotes in a script, where a minus sign is an operator. -/
def pasted : Number → Number
  | .int i => if i.toInt < 0 then (magnitude i).neg else magnitude i
  | .float x => .float x

/-- The text of a number that no minus sign stands in front of: the only float needed is the magnitude of the least integer. -/
def literalText : Number → String
  | .int i => integerText i.toInt
  | .float _ => "9223372036854775808"

/-- The numbers that are written as literals. -/
def IsMagnitude (n : Number) : Prop := ∃ i : Int64, n = magnitude i

/-- A result that has room in 64 bits is an integer. -/
theorem exactOr_int {exact : Int} {i : Int64} (h : int64? exact = some i) (rounded : Binary64) : exactOr exact rounded = .int i := by
  unfold exactOr
  rw [h]

/-- The magnitude of an integer but the least is an integer. -/
theorem magnitude_int {i : Int64} (h : i ≠ Int64.minValue) :
    ∃ j : Int64, j.toInt = i.toInt.natAbs ∧ magnitude i = .int j := by
  have hle := i.le_toInt
  have hlt := i.toInt_lt
  have hne : i.toInt ≠ -2 ^ 63 := fun heq => h (Int64.toInt_inj.mp (heq.trans Int64.toInt_minValue.symm))
  have hrange : int64? i.toInt.natAbs = some (.ofInt i.toInt.natAbs) := if_pos ⟨by omega, by omega⟩
  refine ⟨.ofInt i.toInt.natAbs, Int64.toInt_ofInt_of_le (by omega) (by omega), ?_⟩
  rw [magnitude, ofNat, exactOr_int hrange]

/-- The magnitude of the least integer is a float. -/
theorem magnitude_minValue : magnitude Int64.minValue = .float (.ofInt (2 ^ 63)) := by decide +kernel

/-- The text of a magnitude consists of its digits. -/
theorem literalText_magnitude (i : Int64) : literalText (magnitude i) = String.ofList (Nat.toDigits 10 i.toInt.natAbs) := by
  by_cases h : i = Int64.minValue
  · rw [h, magnitude_minValue]
    decide +kernel
  · obtain ⟨j, hj, hmagnitude⟩ := magnitude_int h
    rw [hmagnitude, literalText, integerText_nonneg (by omega), hj]
    rfl

/-- A magnitude is read back from its text. -/
theorem writes_literalText : Script.Writes literalText IsMagnitude := by
  intro n hn
  obtain ⟨i, hi⟩ := hn
  rw [hi]
  have hvalue : ofText? (literalText (magnitude i)) = some (magnitude i) := by
    by_cases h : i = Int64.minValue
    · rw [h]
      decide +kernel
    · obtain ⟨j, hj, hmagnitude⟩ := magnitude_int h
      rw [hmagnitude]
      exact ofText_integerText (by omega)
  refine ⟨?_, hvalue⟩
  rw [literalText_magnitude, String.toList_ofList]
  refine isNumeral_digits ?_
  rw [← literalText_magnitude, hvalue]
  rfl

/-- Every integer but the least denotes itself. -/
theorem pasted_int {i : Int64} (h : i ≠ Int64.minValue) : (int i).pasted = .int i := by
  obtain ⟨j, hj, hmagnitude⟩ := magnitude_int h
  rw [pasted, hmagnitude]
  by_cases hnegative : i.toInt < 0
  · have hneg : -j.toInt = i.toInt := by omega
    rw [if_pos hnegative, neg, hneg, exactOr_int (int64_toInt i)]
  · have hsame : j.toInt = i.toInt := by omega
    rw [if_neg hnegative, Int64.toInt_inj.mp hsame]

/-- The text of an integer denotes a number that is equal to it. -/
theorem pasted_compare (i : Int64) : (int i).pasted.compare (.int i) = .eq := by
  by_cases h : i = Int64.minValue
  · rw [h]
    decide +kernel
  · rw [pasted_int h]
    exact Int.compare_eq_eq.mpr rfl

end Number

namespace Value

/-! ## Values without floats -/

mutual

/-- A value without floats, whose objects have strings as keys, in increasing order. -/
def Plain : Value → Prop
  | .null | .bool _ | .string _ => True
  | .number n => ∃ i, n = .int i
  | .array items => ItemsPlain items
  | .object ⟨entries, _⟩ => Sorted entries ∧ EntriesPlain entries

/-- Values without floats. -/
def ItemsPlain : List Value → Prop
  | [] => True
  | v :: rest => v.Plain ∧ ItemsPlain rest

/-- Entries without floats, with strings as keys. -/
def EntriesPlain : List (Value × Value) → Prop
  | [] => True
  | (key, value) :: rest => (∃ text, key = .string text) ∧ value.Plain ∧ EntriesPlain rest

end

/-! ## Literals -/

/-- The literal of a number. -/
def numberLiteral : Number → Expr
  | .int i =>
    if i.toInt < 0 then .unary .nowhere .neg (.number .nowhere (.magnitude i)) else .number .nowhere (.magnitude i)
  | .float x => .number .nowhere (.float x)

mutual

/-- The expression that the compact text of a value is. -/
def literal : Value → Expr
  | .null => .null .nowhere
  | .bool b => .bool .nowhere b
  | .number n => numberLiteral n
  | .string text => .string .nowhere text
  | .array items => .array .nowhere (itemLiterals items)
  | .object ⟨entries, _⟩ => .object .nowhere (entryLiterals entries)

/-- The literals of values. -/
def itemLiterals : List Value → List Expr
  | [] => []
  | v :: rest => v.literal :: itemLiterals rest

/-- The literals of entries. -/
def entryLiterals : List (Value × Value) → List (Span × Expr × Expr)
  | [] => []
  | (key, value) :: rest => (.nowhere, key.literal, value.literal) :: entryLiterals rest

end

/-- The literal of a number has no spans. -/
theorem numberLiteral_bare (n : Number) : (numberLiteral n).bare = numberLiteral n := by
  cases n with
  | float x => rfl
  | int i =>
    by_cases hnegative : i.toInt < 0
    · simp only [numberLiteral, if_pos hnegative, Expr.bare]
    · simp only [numberLiteral, if_neg hnegative, Expr.bare]

mutual

/-- A literal stands nowhere. -/
theorem literal_bare : (v : Value) → v.literal.bare = v.literal
  | .null | .bool _ | .string _ => rfl
  | .number n => numberLiteral_bare n
  | .array items => by rw [literal, Expr.bare, itemLiterals_bare items]
  | .object ⟨entries, _⟩ => by rw [literal, Expr.bare, entryLiterals_bare entries]

/-- The literals of values have no spans. -/
theorem itemLiterals_bare : (items : List Value) → Expr.bares (itemLiterals items) = itemLiterals items
  | [] => rfl
  | v :: items => by rw [itemLiterals, Expr.bares, v.literal_bare, itemLiterals_bare items]

/-- The literals of entries have no spans. -/
theorem entryLiterals_bare : (entries : List (Value × Value)) → Expr.bareFields (entryLiterals entries) = entryLiterals entries
  | [] => rfl
  | (key, value) :: entries => by
    rw [entryLiterals, Expr.bareFields, key.literal_bare, value.literal_bare, entryLiterals_bare entries]

end

mutual

/-- The literal of a value without floats can be printed. -/
theorem literal_printable : (v : Value) → v.Plain → v.literal.Printable Number.IsMagnitude
  | .null, _ | .bool _, _ | .string _, _ => trivial
  | .number n, h => by
    obtain ⟨i, rfl⟩ := h
    rw [literal, numberLiteral]
    split <;> exact ⟨i, rfl⟩
  | .array items, h => itemLiterals_printable items h
  | .object ⟨entries, _⟩, h => entryLiterals_printable entries h.2

/-- The literals of values can be printed. -/
theorem itemLiterals_printable : (items : List Value) → ItemsPlain items → Expr.AllPrintable Number.IsMagnitude (itemLiterals items)
  | [], _ => trivial
  | v :: items, h => ⟨v.literal_printable h.1, itemLiterals_printable items h.2⟩

/-- The literals of entries can be printed. -/
theorem entryLiterals_printable : (entries : List (Value × Value)) → EntriesPlain entries →
    Expr.FieldsPrintable Number.IsMagnitude (entryLiterals entries)
  | [], _ => trivial
  | (key, value) :: entries, h => by
    obtain ⟨⟨text, rfl⟩, hvalue, hentries⟩ := h
    exact ⟨trivial, value.literal_printable hvalue, entryLiterals_printable entries hentries⟩

end

/-! ## What a literal denotes -/

mutual

/-- The value that the literal of a value denotes. -/
def pasted : Value → Value
  | .number n => .number n.pasted
  | .array items => .array (pastedItems items)
  | .object ⟨entries, _⟩ => .object (tableOf (pastedEntries entries))
  | .null => .null
  | .bool b => .bool b
  | .string text => .string text

/-- The values that literals denote. -/
def pastedItems : List Value → List Value
  | [] => []
  | v :: rest => v.pasted :: pastedItems rest

/-- The entries that literals denote. -/
def pastedEntries : List (Value × Value) → List (Value × Value)
  | [] => []
  | (key, value) :: rest => (key, value.pasted) :: pastedEntries rest

end

/-- Entries with other values are sorted as before. -/
theorem pastedEntries_sorted {entries : List (Value × Value)} (h : Sorted entries) : Sorted (pastedEntries entries) := by
  have hkeys : ∀ {key : Value} (more : List (Value × Value)), (∀ entry ∈ more, key.compare entry.1 = .lt) →
      ∀ entry ∈ pastedEntries more, key.compare entry.1 = .lt := by
    intro key more hmore
    induction more with
    | nil => exact hmore
    | cons entry more ih =>
      obtain ⟨hentry, hmore⟩ := List.forall_mem_cons.mp hmore
      exact List.forall_mem_cons.mpr ⟨hentry, ih hmore⟩
  induction entries with
  | nil => exact h
  | cons entry entries ih =>
    obtain ⟨hentry, hentries⟩ := List.pairwise_cons.mp h
    exact List.pairwise_cons.mpr ⟨hkeys entries hentry, ih hentries⟩

mutual

/-- A literal denotes a value that is equal to the one that was printed. -/
theorem pasted_compare : (v : Value) → v.Plain → v.pasted.compare v = .eq
  | .null, _ => rfl
  | .bool b, _ => compare_self (.bool b)
  | .string text, _ => compare_self (.string text)
  | .number n, h => by
    obtain ⟨i, rfl⟩ := h
    exact Number.pasted_compare i
  | .array items, h => pastedItems_compare items h
  | .object ⟨entries, _⟩, h => by
    obtain ⟨heights, htable⟩ := tableOf_eq (pastedEntries_sorted h.1)
    rw [pasted, htable]
    exact pastedEntries_compare entries h.2

/-- Literals denote values that are equal to those they are written for. -/
theorem pastedItems_compare : (items : List Value) → ItemsPlain items → compareItems (pastedItems items) items = .eq
  | [], _ => rfl
  | v :: items, h => by
    rw [pastedItems, compareItems_cons, v.pasted_compare h.1, pastedItems_compare items h.2]
    rfl

/-- The entries that literals denote are equal to those they are written for. -/
theorem pastedEntries_compare : (entries : List (Value × Value)) → EntriesPlain entries →
    compareEntries (pastedEntries entries) entries = .eq
  | [], _ => rfl
  | (key, value) :: entries, h => by
    rw [pastedEntries, compareEntries_cons, key.compare_self, value.pasted_compare h.2.1, pastedEntries_compare entries h.2.2]
    rfl

end

/-! ## What is seen of a value -/

mutual

/-- A value, without the heights at which the entries of its objects stand. -/
def flat : Value → Value
  | .array items => .array (flatItems items)
  | .object ⟨entries, _⟩ => .object ⟨flatEntries entries, []⟩
  | .null => .null
  | .bool b => .bool b
  | .number n => .number n
  | .string text => .string text

/-- Values without heights. -/
def flatItems : List Value → List Value
  | [] => []
  | v :: rest => v.flat :: flatItems rest

/-- Entries without heights. -/
def flatEntries : List (Value × Value) → List (Value × Value)
  | [] => []
  | (key, value) :: rest => (key.flat, value.flat) :: flatEntries rest

end

/-- A value is a string if and only if its flat form is. -/
theorem flat_isString (v : Value) : v.flat.isString = v.isString := by
  cases v <;> rfl

mutual

/-- The heights are not written. -/
theorem writeCompact_flat : (v : Value) → (out : String) → writeCompact v.flat out = writeCompact v out
  | .null, _ | .bool _, _ | .number _, _ | .string _, _ => rfl
  | .array items, out => by rw [flat, writeCompact, writeCompact, writeItems_flat items]
  | .object ⟨entries, _⟩, out => by rw [flat, writeCompact, writeCompact, writeEntries_flat entries]

/-- Items are written like their flat forms. -/
theorem writeItems_flat : (items : List Value) → (out : String) → (first : Bool) →
    writeItems (flatItems items) out first = writeItems items out first
  | [], _, _ => rfl
  | v :: items, out, first => by rw [flatItems, writeItems, writeItems, writeCompact_flat v, writeItems_flat items]

/-- Entries are written like their flat forms. -/
theorem writeEntries_flat : (entries : List (Value × Value)) → (out : String) → (first : Bool) →
    writeEntries (flatEntries entries) out first = writeEntries entries out first
  | [], _, _ => rfl
  | (key, value) :: entries, out, first => by
    rw [flatEntries, writeEntries, writeEntries, writeCompact_flat key, writeCompact_flat value, writeEntries_flat entries, flat_isString]

end

mutual

/-- A value without the least integer is denoted by its literal. -/
theorem pasted_flat : (v : Value) → v.Plain → v.Within (· ≠ .int Int64.minValue) → v.pasted.flat = v.flat
  | .null, _, _ | .bool _, _, _ | .string _, _, _ => rfl
  | .number n, h, hwithin => by
    obtain ⟨i, rfl⟩ := h
    have hi : i ≠ Int64.minValue := fun heq => hwithin (congrArg _ heq)
    rw [pasted, Number.pasted_int hi]
  | .array items, h, hwithin => by rw [pasted, flat, flat, pastedItems_flat items h hwithin]
  | .object ⟨entries, _⟩, h, hwithin => by
    obtain ⟨heights, htable⟩ := tableOf_eq (pastedEntries_sorted h.1)
    rw [pasted, htable, flat, flat, pastedEntries_flat entries h.2 hwithin]

/-- Without the least integer, literals denote the values they are written for. -/
theorem pastedItems_flat : (items : List Value) → ItemsPlain items → ItemsWithin (· ≠ .int Int64.minValue) items →
    flatItems (pastedItems items) = flatItems items
  | [], _, _ => rfl
  | v :: items, h, hwithin => by
    rw [pastedItems, flatItems, flatItems, v.pasted_flat h.1 hwithin.1, pastedItems_flat items h.2 hwithin.2]

/-- Without the least integer, the entries that literals denote are those they are written for. -/
theorem pastedEntries_flat : (entries : List (Value × Value)) → EntriesPlain entries →
    EntriesWithin (· ≠ .int Int64.minValue) entries → flatEntries (pastedEntries entries) = flatEntries entries
  | [], _, _ => rfl
  | (key, value) :: entries, h, hwithin => by
    rw [pastedEntries, flatEntries, flatEntries, value.pasted_flat h.2.1 hwithin.2.1, pastedEntries_flat entries h.2.2 hwithin.2.2]

end

end Value

end HostScript
